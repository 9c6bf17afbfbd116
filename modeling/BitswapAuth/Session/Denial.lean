/-
# `BitswapAuth.Session.Denial` — what a DONT_HAVE is worth

A peer that answers a want-block with DONT_HAVE should not be asked for the same
want again, unless it says HAVE later.  The sender does not take the answer from
the message: it looks the peer up in the block presence manager, where the
message was recorded before.  The presence manager goes by CID and never turns a
HAVE into a DONT_HAVE, and its entries are deleted when nobody wants the CID
under some auth string any more.  So a peer that said HAVE first, as a peer does
that has the block and will not release it, is the best peer again at once.

The sender is driven here the way `SessionManager.ReceiveFrom` drives it: a
message is recorded when it arrives, and reaches the sender's channel some time
later.  `noneRepeated_of_remembers`: if the presence manager has a DONT_HAVE for
a peer that has denied a want whenever that peer is looked up for it, the want
does not go back to that peer.
-/
import BitswapAuth.Session.Outstanding

namespace BitswapAuth

open Lib

namespace SessionWantSender

instance (updates : List Update) (w : Want) (q : PeerID) : Decidable (Denies updates w q) :=
  inferInstanceAs (Decidable (∃ upd ∈ updates, upd.sender = q ∧ w ∈ upd.dontHaves))

instance (updates : List Update) (w : Want) (q : PeerID) : Decidable (Offers updates w q) :=
  inferInstanceAs (Decidable (∃ upd ∈ updates, upd.sender = q ∧ w ∈ upd.haves))

instance (changes : List Change) (w : Want) : Decidable (Kept changes w) :=
  inferInstanceAs (Decidable (∀ ch ∈ changes, w ∉ ch.cancel))

instance (sws : SessionWantSender) (changes : List Change) (q : PeerID) :
    Decidable (sws.Leaving changes q) :=
  inferInstanceAs (Decidable (_ ∧ _))

instance (sws : SessionWantSender) (changes : List Change) (w : Want) (q : PeerID) :
    Decidable (sws.LooksUp changes w q) :=
  inferInstanceAs (Decidable ((wordOn changes q = some true ∧ q ∉ sws.spm.peers) ∨
    Denies (updatesOf changes) w q ∨ Offers (updatesOf changes) w q))

end SessionWantSender

/-! ## A sender and the messages for it -/

/-- A DONT_HAVE that answered a want-block: the want, the peer, and how many messages had
arrived with it. -/
structure Denial where
  want : Want
  peer : PeerID
  arrived : Nat
  deriving DecidableEq

/-- A want sender, the block presence manager, and the messages on their way: those that
are recorded and not yet passed to the session, and the changes in the channel,
each with the number of messages that had arrived with it.  Beside that, all messages
so far, the DONT_HAVEs since which no want-block has gone out, and the want-blocks that
went back to the peer of such a DONT_HAVE. -/
structure Driven where
  bpm : BlockPresenceManager
  sws : SessionWantSender
  passing : List (Nat × Update)
  queue : List (Nat × Change)
  log : List Update
  denied : List Denial
  repeated : List Denial

namespace Driven

open SessionWantSender

/-- The steps: a message arrives and is recorded; a message is passed to the session,
which keeps what it is interested in; wants are added or cancelled, or a signal on a
peer comes in; the presence manager forgets wants; the sender takes changes from the
channel. -/
inductive Act where
  | receive (m : Update)
  | pass (i : Nat) (interested : List Want)
  | change (add cancel : List Want) (availability : PeerAvailability)
  | removeKeys (ws : List Want)
  | onChange (n : Nat)

def start (sid : SessionID) (rng : Nat → Draw) : Driven := ⟨.new, .new sid rng, [], [], [], [], []⟩

/-- `SessionManager.ReceiveFrom`, up to the recording of the message. -/
def receive (s : Driven) (m : Update) : Driven :=
  { s with
    bpm := s.bpm.receiveFrom m.sender m.haves m.dontHaves
    log := s.log ++ [m]
    passing := s.passing ++ [(s.log.length + 1, m)] }

/-- `Session.ReceiveFrom`, up to the filtered update. -/
def pass (s : Driven) (i : Nat) (interested : List Want) : Driven :=
  match s.passing[i]? with
  | none => s
  | some (k, m) =>
      let f : List Want → List Want := List.filter (· ∈ interested)
      let upd : Update := ⟨m.sender, f m.ks, f m.haves, f m.dontHaves⟩
      { s with
        passing := s.passing.eraseIdx i
        queue := if upd.ks.isEmpty && upd.haves.isEmpty && upd.dontHaves.isEmpty then s.queue
          else s.queue ++ [(k, { update := upd })] }

/-- The first DONT_HAVE for a want from a peer among the changes. -/
def deniedIn (batch : List (Nat × Change)) (w : Want) (p : PeerID) : Option Denial :=
  (batch.find? fun e => e.2.update.sender = p ∧ w ∈ e.2.update.dontHaves).map fun e =>
    ⟨w, p, e.1⟩

/-- The DONT_HAVEs of a batch that answer an outstanding want-block. -/
def newDenials (s : Driven) (batch : List (Nat × Change)) : List Denial :=
  s.sws.wants.pairs.filterMap fun e =>
    if e.2.sentTo ≠ .empty ∧ ¬ s.sws.Leaving (batch.map Prod.snd) e.2.sentTo then
      deniedIn batch e.1 e.2.sentTo
    else none

/-- The DONT_HAVEs that stand when the wants of a batch are sent: the want has stayed
tracked and has not been sent since. -/
def standing (s : Driven) (batch : List (Nat × Change)) : List Denial :=
  (s.denied ++ s.newDenials batch).filter fun d =>
    Kept (batch.map Prod.snd) d.want ∧ d.want ∉ blocksOf (batch.map Prod.snd)

/-- A HAVE for the want has arrived from the peer after its DONT_HAVE. -/
def HaveSince (log : List Update) (d : Denial) : Prop :=
  ∃ m ∈ log.drop d.arrived, m.sender = d.peer ∧ d.want ∈ m.haves

instance (log : List Update) (d : Denial) : Decidable (HaveSince log d) :=
  inferInstanceAs (Decidable (∃ m ∈ log.drop d.arrived, m.sender = d.peer ∧ d.want ∈ m.haves))

/-- `onChange` with a batch from the channel. -/
def turn (s : Driven) (batch : List (Nat × Change)) : Driven :=
  let b : Batch := ⟨s.bpm, batch.map Prod.snd⟩
  let calls := s.sws.calls b
  { s with
    sws := s.sws.turn b
    queue := s.queue.drop batch.length
    denied := (s.standing batch).filter fun d => blockSends d.want calls = []
    repeated := s.repeated ++ (s.standing batch).filter fun d =>
      d.peer ∈ blockSends d.want calls ∧ ¬ HaveSince s.log d }

def step (s : Driven) : Act → Driven
  | .receive m => s.receive m
  | .pass i interested => s.pass i interested
  | .change add cancel availability =>
      { s with queue := s.queue ++ [(0, ⟨add, cancel, ⟨.empty, [], [], []⟩, availability⟩)] }
  | .removeKeys ws => { s with bpm := s.bpm.removeKeys ws }
  | .onChange n =>
      match s.queue with
      | [] => s
      | ch :: chs => s.turn (ch :: chs.take n)

/-- No want-block has gone back to a peer that had answered DONT_HAVE and not said HAVE
since. -/
def NoneRepeated (s : Driven) : Prop := s.repeated = []

/-- The presence manager has a DONT_HAVE for every peer that the batch looks up for a
want the peer has denied. -/
def RemembersIn (s : Driven) (batch : List (Nat × Change)) : Prop :=
  ∀ d ∈ s.standing batch, ¬ HaveSince s.log d →
    s.sws.LooksUp (batch.map Prod.snd) d.want d.peer →
      s.bpm.peerDoesNotHaveBlock d.peer d.want.cid = true

def Remembers (s : Driven) : Act → Prop
  | .onChange n =>
      match s.queue with
      | [] => True
      | ch :: chs => s.RemembersIn (ch :: chs.take n)
  | _ => True

instance (s : Driven) (batch : List (Nat × Change)) : Decidable (s.RemembersIn batch) :=
  inferInstanceAs (Decidable (∀ d ∈ s.standing batch, ¬ HaveSince s.log d →
    s.sws.LooksUp (batch.map Prod.snd) d.want d.peer →
      s.bpm.peerDoesNotHaveBlock d.peer d.want.cid = true))

instance (s : Driven) : (a : Act) → Decidable (s.Remembers a)
  | .receive _ | .pass _ _ | .change _ _ _ | .removeKeys _ => .isTrue trivial
  | .onChange n =>
      match s with
      | ⟨_, _, _, [], _, _, _⟩ => .isTrue trivial
      | ⟨bpm, sws, passing, ch :: chs, log, denied, repeated⟩ =>
          inferInstanceAs (Decidable (RemembersIn ⟨bpm, sws, passing, ch :: chs, log, denied,
            repeated⟩ (ch :: chs.take n)))

/-! ## The want does not go back -/

/-- The want has the peer down for DONT_HAVE, or not at all. -/
def DownFor (v : View) (p : PeerID) : Prop := ∀ bp, v.presence p = some bp → bp = .BPDontHave

/-- What holds between the steps: a want that was denied is tracked, and has the peer down
for DONT_HAVE, or not at all, as long as no HAVE has arrived. -/
structure Inv (s : Driven) : Prop where
  tracked : ∀ d ∈ s.denied, d.want ∈ s.sws.wants
  down : ∀ d ∈ s.denied, ¬ HaveSince s.log d → ∀ wi, s.sws.wants.lookup d.want = some wi →
    DownFor wi.view d.peer
  none : s.repeated = []

section Turn

variable {s : Driven} {batch : List (Nat × Change)} {d : Denial}

@[simp] theorem turn_sws :
    (s.turn batch).sws = (s.sws.onChange s.bpm (batch.map Prod.snd)).1 := rfl

@[simp] theorem turn_log : (s.turn batch).log = s.log := rfl

/-- A DONT_HAVE of the batch is one, of a want that is tracked. -/
theorem mem_newDenials (h : d ∈ s.newDenials batch) :
    d.want ∈ s.sws.wants ∧ Denies (updatesOf (batch.map Prod.snd)) d.want d.peer := by
  obtain ⟨⟨w, wi⟩, hmem, h⟩ := List.mem_filterMap.mp h
  split at h
  · rename_i hsent
    obtain ⟨e, he, rfl⟩ := Option.map_eq_some_iff.mp h
    have hp := List.find?_some he
    simp only [decide_eq_true_eq] at hp
    refine ⟨GoMap.mem_of_lookup (GoMap.mem_pairs.mp hmem), e.2.update, ?_, hp.1, hp.2⟩
    refine List.mem_filter.mpr ⟨List.mem_map_of_mem (List.mem_map_of_mem
      (List.mem_of_find?_eq_some he)), ?_⟩
    rw [hp.1]
    simpa using hsent.1
  · cases h

/-- A DONT_HAVE that stands is of a tracked want that the batch keeps, and was there before
unless the batch has it. -/
theorem mem_standing (hinv : s.Inv) (h : d ∈ s.standing batch) :
    d.want ∈ s.sws.wants ∧ Kept (batch.map Prod.snd) d.want ∧
      d.want ∉ blocksOf (batch.map Prod.snd) ∧
      (d ∈ s.denied ∨ Denies (updatesOf (batch.map Prod.snd)) d.want d.peer) := by
  obtain ⟨hmem, hk⟩ := List.mem_filter.mp h
  simp only [decide_eq_true_eq] at hk
  rcases List.mem_append.mp hmem with hd | hd
  · exact ⟨hinv.tracked d hd, hk.1, hk.2, .inl hd⟩
  · obtain ⟨hw, hden⟩ := mem_newDenials hd
    exact ⟨hw, hk.1, hk.2, .inr hden⟩

/-- The peer of a DONT_HAVE that stands is down for DONT_HAVE, or not at all, once the
batch is gone through. -/
theorem downFor_became (hinv : s.Inv) (hd : d ∈ s.standing batch) (hno : ¬ HaveSince s.log d)
    (hok : s.RemembersIn batch) {v₀ v : View}
    (hstart : s.sws.Starts s.bpm (batch.map Prod.snd) d.want v₀)
    (hb : View.Became s.bpm d.want.cid (s.sws.LooksUp (batch.map Prod.snd) d.want)
      (s.sws.Leaving (batch.map Prod.snd)) (s.sws.Releases (batch.map Prod.snd) d.want) v₀ v) :
    DownFor v d.peer := by
  obtain ⟨hw, hkept, -, hcase⟩ := mem_standing hinv hd
  intro bp hbp
  by_cases hs : s.sws.LooksUp (batch.map Prod.snd) d.want d.peer
  · -- looked up, and found with the DONT_HAVE
    have hfind : s.bpm.find d.peer d.want.cid = some false := by
      simpa [BlockPresenceManager.peerDoesNotHaveBlock] using hok d hd hno hs
    have hpres := Option.some.inj ((hb.seen d.peer hs).symm.trans hbp)
    rw [← hpres]
    simp [BlockPresenceManager.presenceOf, BlockPresenceManager.peerHasBlock,
      BlockPresenceManager.peerDoesNotHaveBlock, hfind]
  · have hden : d ∈ s.denied := hcase.resolve_right fun h => hs (.inr (.inl h))
    by_cases hl : s.sws.Leaving (batch.map Prod.snd) d.peer
    · rw [hb.gone d.peer hl hs] at hbp
      cases hbp
    · rw [hb.same d.peer hl hs] at hbp
      rcases hstart with ⟨-, hv⟩ | ⟨-, hn⟩
      · obtain ⟨wi, hwi, rfl⟩ := view_eq_some.mp hv
        exact hinv.down d hden hno wi hwi bp hbp
      · exact absurd ⟨hkept, hw⟩ hn

/-- The want is not sent to the peer of a DONT_HAVE that stands. -/
theorem not_mem_blockSends (hinv : s.Inv) (hd : d ∈ s.standing batch) (hno : ¬ HaveSince s.log d)
    (hok : s.RemembersIn batch) :
    d.peer ∉ blockSends d.want (s.sws.calls ⟨s.bpm, batch.map Prod.snd⟩) := by
  intro hsent
  obtain ⟨⟨hne, wi, hwi, -, hbest⟩, -⟩ := asks_of_mem_blockSends hsent
  obtain ⟨v₀, v, hstart, hb, hpres, -⟩ :=
    (settles_settle s.bpm (batch.map Prod.snd) s.sws).want d.want wi.view
      (view_eq_some.mpr ⟨wi, hwi, rfl⟩)
  -- the best peer is known, and not with a DONT_HAVE
  obtain ⟨bp, hbp, hnot, -⟩ := wi.best.named (hbest ▸ hne)
  have hbp' : wi.view.presence d.peer = some bp := hbest ▸ hbp
  rw [hpres] at hbp'
  exact hnot (downFor_became hinv hd hno hok hstart hb bp hbp')

theorem inv_turn (hinv : s.Inv) (hok : s.RemembersIn batch) : (s.turn batch).Inv := by
  have ht := turn_onChange s.bpm (batch.map Prod.snd) s.sws
  refine ⟨fun d hd => ?_, fun d hd hno wi hwi => ?_, ?_⟩
  · obtain ⟨hw, hkept, hblk, -⟩ := mem_standing hinv (List.mem_filter.mp hd).1
    rw [turn_sws]
    refine (ht.tracked d.want).mpr ⟨?_, hblk⟩
    rw [eq_true hw]
    exact trackedAfter_of_kept hkept
  · have hstand := (List.mem_filter.mp hd).1
    rw [turn_log] at hno
    rw [turn_sws] at hwi
    obtain ⟨v₀, v, ho⟩ := ht.want d.want wi hwi
    intro bp hbp
    have hbp' : v.presence d.peer = some bp := (ho.presence d.peer).symm.trans hbp
    exact downFor_became hinv hstand hno hok ho.starts ho.became bp hbp'
  · show s.repeated ++ _ = []
    rw [hinv.none, List.nil_append]
    refine List.filter_eq_nil_iff.mpr fun d hd h => ?_
    simp only [decide_eq_true_eq] at h
    exact not_mem_blockSends hinv hd h.2 hok h.1

/-- A HAVE that has arrived has arrived for good. -/
theorem haveSince_append {log : List Update} (h : HaveSince log d) (m : Update) :
    HaveSince (log ++ [m]) d := by
  obtain ⟨m', hm', h⟩ := h
  refine ⟨m', ?_, h⟩
  rw [List.drop_append]
  exact List.mem_append_left _ hm'

theorem inv_step (a : Act) (hinv : s.Inv) (hok : s.Remembers a) : (s.step a).Inv := by
  cases a with
  | receive m =>
      refine ⟨hinv.tracked, fun d hd hno => ?_, hinv.none⟩
      exact hinv.down d hd fun h => hno (haveSince_append h m)
  | pass i interested =>
      rw [step, pass]
      split
      · exact hinv
      · exact ⟨hinv.tracked, hinv.down, hinv.none⟩
  | change add cancel availability => exact ⟨hinv.tracked, hinv.down, hinv.none⟩
  | removeKeys ws => exact ⟨hinv.tracked, hinv.down, hinv.none⟩
  | onChange n =>
      rw [step]
      rw [Remembers] at hok
      split
      · exact hinv
      · rename_i ch chs hq
        rw [hq] at hok
        exact inv_turn hinv hok

end Turn

theorem inv_start (sid : SessionID) (rng : Nat → Draw) : (start sid rng).Inv :=
  ⟨fun _ hd => absurd hd List.not_mem_nil, fun _ hd => absurd hd List.not_mem_nil, rfl⟩

/-- **After a DONT_HAVE the session moves on**, as long as the presence manager remembers
it: in a run in which every peer that is looked up for a want it has denied is found
with DONT_HAVE, no want-block goes back to a peer that denied the want, unless a HAVE
for the want has arrived from it since. -/
theorem noneRepeated_of_remembers (sid : SessionID) (rng : Nat → Draw) (acts : List Act)
    (hok : Meets step Remembers (start sid rng) acts) :
    Always step NoneRepeated (start sid rng) acts :=
  always_of_meets (fun _ h => h.none) (fun _ a h hok => inv_step a h hok) acts
    (inv_start sid rng) hok

/-- A want-block to one peer is answered DONT_HAVE, and the next goes to the other. -/
theorem noneRepeated_other_peer :
    let w : Want := ⟨⟨[1]⟩, []⟩
    let x : Want := ⟨⟨[2]⟩, []⟩
    let p : PeerID := ⟨[7]⟩
    let q : PeerID := ⟨[8]⟩
    let acts : List Act := [.change [w] [] ⟨.empty, false⟩, .receive ⟨p, [], [x], []⟩,
      .pass 0 [x], .onChange 1, .receive ⟨q, [], [x], []⟩, .pass 0 [x], .onChange 0,
      .receive ⟨p, [], [], [w]⟩, .pass 0 [w], .onChange 0]
    Meets step Remembers (start 1 fun _ => .plain) acts ∧
      ((run step (start 1 fun _ => .plain) acts).sws.wants.lookup w).map WantInfo.sentTo = some q ∧
      Always step NoneRepeated (start 1 fun _ => .plain) acts := by
  intro w x p q acts
  have hok : Meets step Remembers (start 1 fun _ => .plain) acts := by decide
  exact ⟨hok, by decide, noneRepeated_of_remembers 1 (fun _ => .plain) acts hok⟩

/-- A peer says HAVE, answers the want-block DONT_HAVE, and is sent the want-block again,
although there is another peer in the session of which nothing is known. -/
theorem repeated_after_have :
    let w : Want := ⟨⟨[1]⟩, []⟩
    let x : Want := ⟨⟨[2]⟩, []⟩
    let p : PeerID := ⟨[7]⟩
    let q : PeerID := ⟨[8]⟩
    let acts : List Act := [.change [w] [] ⟨.empty, false⟩, .receive ⟨p, [], [w], []⟩,
      .pass 0 [w], .receive ⟨q, [], [x], []⟩, .pass 0 [x], .onChange 2,
      .receive ⟨p, [], [], [w]⟩, .pass 0 [w]]
    let s := run step (start 1 fun _ => .plain) acts
    (s.sws.wants.lookup w).map WantInfo.sentTo = some p ∧ q ∈ s.sws.spm.peers ∧
      s.bpm.peerDoesNotHaveBlock q w.cid = false ∧
      (s.sws.wants.lookup w).bind (·.blockPresence.lookup q) = some .BPUnknown ∧
      (s.step (.onChange 0)).repeated = [⟨w, p, 3⟩] ∧
      ¬ (s.step (.onChange 0)).NoneRepeated := by
  intro w x p q acts s
  have hrep : (s.step (.onChange 0)).repeated = [⟨w, p, 3⟩] := by decide
  refine ⟨by decide, by decide, by decide, by decide, hrep,
    fun h => ?_⟩
  have hnil := hrep.symm.trans h
  cases hnil

end Driven

end BitswapAuth
