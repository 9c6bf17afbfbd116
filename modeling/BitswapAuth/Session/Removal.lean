/-
# `BitswapAuth.Session.Removal` — removing a session that shares its wants

Sessions share what the peer manager asks for.  When a session is removed, the
interest manager says which of its wants nobody else is interested in, and these
are cancelled.  That is two steps under two locks.  In between another session
may record its interest and pass the same want on: the peer manager has it as
sent already and sends nothing, and then the cancel takes it away.

    RemoveSession A        w is returned, nobody else is interested
    RecordSessionInterest B w
    SendWants B p w        filtered out, p has it from A
    SendCancels w          p forgets it

`passed` keeps the wants that the sessions passed on and still wait for.
`kept_of_clear`: as long as no cancel of a removal takes such a want, every peer
has what was passed for it.  `clear_of_apart`: the interest manager sees to that
by itself, unless a want is passed on between the two steps of a removal that
returned it.
-/
import BitswapAuth.PeerManager.Asked
import BitswapAuth.Session.Interest

namespace BitswapAuth

open Lib SessionInterestManager

/-- A want that a session passed on, for one peer or for all. -/
structure Pass where
  session : SessionID
  want : Want
  peer : Option PeerID
  deriving DecidableEq

namespace Asked

/-- What was passed on is asked for: of the peer, or of everyone who is or will be
connected. -/
def Serves (a : Asked) (e : Pass) : Prop :=
  match e.peer with
  | some p => a.Outstanding p e.want
  | none => e.want ∈ a.broadcast

/-- The operation ends what was passed on. -/
def Ends (e : Pass) : PeerManager.Op → Prop
  | .disconnected p _ _ _ => e.peer = some p
  | .sendCancels ks _ => e.want ∈ ks
  | _ => False

variable {a : Asked} {p : PeerID} {w : Want}

theorem Outstanding.step {op : PeerManager.Op} (h : a.Outstanding p w)
    (hop : ¬ Ends ⟨0, w, some p⟩ op) : (a.step op).Outstanding p w := by
  cases op with
  | connected q ob os => exact h
  | disconnected q ob oh os => exact h.imp_right fun hw => ⟨hw, fun hq => hop (congrArg some hq)⟩
  | broadcastWantHaves ws o => exact h.imp_left .inl
  | sendWants q bs hs => exact h.imp_right .inl
  | sendCancels ks o => exact h.imp (fun hw => ⟨hw, hop⟩) fun hw => ⟨hw, hop⟩

/-- What no operation ends is asked for further on. -/
theorem Serves.step {e : Pass} {op : PeerManager.Op} (h : a.Serves e) (hop : ¬ Ends e op) :
    (a.step op).Serves e := by
  obtain ⟨ses, w, peer⟩ := e
  cases peer with
  | some p =>
      refine Outstanding.step h fun hends => hop ?_
      cases op <;> exact hends
  | none =>
      cases op with
      | connected q ob os => exact h
      | disconnected q ob oh os => exact h
      | broadcastWantHaves ws o => exact .inl h
      | sendWants q bs hs => exact h
      | sendCancels ks o => exact ⟨h, hop⟩

theorem outstanding_sendWants {bs hs : List Want} (hp : p ∈ a.connected) (hw : w ∈ bs ++ hs) :
    (a.step (.sendWants p bs hs)).Outstanding p w := by
  by_cases hb : w ∈ a.broadcast
  · exact .inl hb
  · refine .inr (.inr ⟨⟨rfl, hp⟩, ?_⟩)
    exact (List.mem_append.mp hw).imp_right fun hw => ⟨hw, hb⟩

end Asked

/-! ## Sessions that share the peer manager -/

/-- The interest manager and the peer manager, with the cancels of the removals that
are in progress, and what the sessions have passed on and wait for. -/
structure SharedWants (Q : Type) where
  sim : SessionInterestManager
  pm : PeerManager Q
  removing : List (List Want)
  passed : List Pass

namespace SharedWants

variable {Q : Type}

/-- The steps.  A removal is `removeSession` or `removeSessionInterested`, and later
`sendCancels` with its place among the removals in progress.  `receive` is the
cancel of wants whose blocks have come. -/
inductive Act where
  | recordSessionInterest (ses : SessionID) (ks : List Want)
  | sendWants (ses : SessionID) (p : PeerID) (wantBlocks wantHaves : List Want)
  | broadcastWantHaves (ses : SessionID) (wantHaves : List Want) (o : RangeOrder)
  | removeSession (ses : SessionID) (o : RangeOrder)
  | removeSessionInterested (ses : SessionID) (ws : List Want)
  | sendCancels (i : Nat) (o : RangeOrder)
  | receive (ws : List Want) (o : RangeOrder)
  | connected (p : PeerID) (ob os : RangeOrder)
  | disconnected (p : PeerID) (ob oh os : RangeOrder)

def start : SharedWants Q := ⟨.new, .new, [], []⟩

/-- The wants of a session that it is interested in, as passed on. -/
def passes (s : SharedWants Q) (ses : SessionID) (ws : List Want) (peer : Option PeerID) :
    List Pass :=
  (s.sim.filterSessionInterested ses ws).map (⟨ses, ·, peer⟩)

def step [PeerQueue Q] (s : SharedWants Q) : Act → SharedWants Q
  | .recordSessionInterest ses ks => { s with sim := s.sim.recordSessionInterest ses ks }
  | .sendWants ses p bs hs =>
      { s with
        pm := s.pm.step (.sendWants p bs hs)
        passed := s.passed ++
          if p ∈ s.pm.peerQueues then s.passes ses (bs ++ hs) (some p) else [] }
  | .broadcastWantHaves ses ws o =>
      { s with
        pm := s.pm.step (.broadcastWantHaves ws o)
        passed := s.passed ++ s.passes ses ws none }
  | .removeSession ses o =>
      let r := s.sim.removeSession ses o
      { s with
        sim := r.1
        removing := s.removing ++ [r.2]
        passed := s.passed.filter fun e => e.session ≠ ses }
  | .removeSessionInterested ses ws =>
      let r := s.sim.removeSessionInterested ses ws
      { s with
        sim := r.1
        removing := s.removing ++ [r.2]
        passed := s.passed.filter fun e => ¬ (e.session = ses ∧ e.want ∈ ws) }
  | .sendCancels i o =>
      match s.removing[i]? with
      | none => s
      | some ks =>
          { s with pm := s.pm.step (.sendCancels ks o), removing := s.removing.eraseIdx i }
  | .receive ws o =>
      { s with
        pm := s.pm.step (.sendCancels ws o)
        passed := s.passed.filter fun e => e.want ∉ ws }
  | .connected p ob os => { s with pm := s.pm.step (.connected p ob os) }
  | .disconnected p ob oh os =>
      { s with
        pm := s.pm.step (.disconnected p ob oh os)
        passed := s.passed.filter fun e => e.peer ≠ some p }

/-- What was passed on is outstanding now: at the peer, or at every connected peer. -/
def Stands (s : SharedWants Q) (e : Pass) : Prop :=
  match e.peer with
  | some p => s.pm.asked.Outstanding p e.want
  | none => ∀ p ∈ s.pm.asked.connected, s.pm.asked.Outstanding p e.want

/-- Unless a removal is in progress, all that was passed on is outstanding. -/
def Kept (s : SharedWants Q) : Prop := s.removing = [] → ∀ e ∈ s.passed, s.Stands e

/-- A removal cancels nothing that a session has passed on and waits for. -/
def Clear (s : SharedWants Q) : Act → Prop
  | .sendCancels i _ => ∀ ks ∈ s.removing[i]?, ∀ e ∈ s.passed, e.want ∉ ks
  | _ => True

/-! ## What is passed on stays outstanding -/

/-- The peer manager's books are in order, and it serves all that was passed on. -/
structure Inv (s : SharedWants Q) : Prop where
  pm : s.pm.Exact
  serves : ∀ e ∈ s.passed, s.pm.asked.Serves e

theorem Inv.kept {s : SharedWants Q} (h : s.Inv) : s.Kept := by
  intro _ e he
  have hs := h.serves e he
  obtain ⟨ses, w, peer⟩ := e
  cases peer with
  | some p => exact hs
  | none => exact fun p _ => .inl hs

variable [PeerQueue Q] {s : SharedWants Q}

/-- An operation of the peer manager: what was passed on before is served as long as it is
not ended, and what comes with the operation has to be. -/
theorem Inv.op (h : s.Inv) (op : PeerManager.Op) {s' : SharedWants Q}
    (hpm : s'.pm = s.pm.step op)
    (hpassed : ∀ e ∈ s'.passed,
      (e ∈ s.passed ∧ ¬ Asked.Ends e op) ∨ (s.pm.asked.step op).Serves e) : s'.Inv := by
  obtain ⟨hex, hstep⟩ := PeerManager.asked_step op h.pm
  refine ⟨hpm ▸ hex, fun e he => ?_⟩
  rw [hpm, hstep]
  rcases hpassed e he with ⟨hold, hends⟩ | hnew
  · exact (h.serves e hold).step hends
  · exact hnew

omit [PeerQueue Q] in
theorem mem_passes {ses : SessionID} {ws : List Want} {peer : Option PeerID} {e : Pass} :
    e ∈ s.passes ses ws peer ↔
      (e.want ∈ ws ∧ s.sim.find ses e.want ≠ none) ∧ e.session = ses ∧ e.peer = peer := by
  rw [passes, List.mem_map]
  constructor
  · rintro ⟨w, hw, rfl⟩
    exact ⟨mem_filterSessionInterested.mp hw, rfl, rfl⟩
  · rintro ⟨hw, rfl, rfl⟩
    exact ⟨e.want, mem_filterSessionInterested.mpr hw, rfl⟩

theorem inv_step (a : Act) (h : s.Inv) (hok : s.Clear a) : (s.step a).Inv := by
  cases a with
  | recordSessionInterest ses ks => exact ⟨h.pm, h.serves⟩
  | sendWants ses p bs hs =>
      refine h.op (.sendWants p bs hs) rfl fun e he => ?_
      refine (List.mem_append.mp he).imp (fun he => ⟨he, id⟩) fun he => ?_
      split at he
      · rename_i hp
        obtain ⟨⟨hw, -⟩, -, hpeer⟩ := mem_passes.mp he
        rw [Asked.Serves, hpeer]
        exact Asked.outstanding_sendWants hp hw
      · exact absurd he List.not_mem_nil
  | broadcastWantHaves ses ws o =>
      refine h.op (.broadcastWantHaves ws o) rfl fun e he => ?_
      refine (List.mem_append.mp he).imp (fun he => ⟨he, id⟩) fun he => ?_
      obtain ⟨⟨hw, -⟩, -, hpeer⟩ := mem_passes.mp he
      rw [Asked.Serves, hpeer]
      exact .inr hw
  | removeSession ses o => exact ⟨h.pm, fun e he => h.serves e (List.mem_filter.mp he).1⟩
  | removeSessionInterested ses ws =>
      exact ⟨h.pm, fun e he => h.serves e (List.mem_filter.mp he).1⟩
  | sendCancels i o =>
      rw [step]
      split
      · exact h
      · rename_i ks hks
        exact h.op (.sendCancels ks o) rfl fun e he => .inl ⟨he, hok ks hks e he⟩
  | receive ws o =>
      refine h.op (.sendCancels ws o) rfl fun e he => .inl ?_
      obtain ⟨he, hw⟩ := List.mem_filter.mp he
      have hw' : e.want ∉ ws := of_decide_eq_true hw
      exact ⟨he, hw'⟩
  | connected p ob os => exact h.op (.connected p ob os) rfl fun e he => .inl ⟨he, id⟩
  | disconnected p ob oh os =>
      refine h.op (.disconnected p ob oh os) rfl fun e he => .inl ?_
      obtain ⟨he, hp⟩ := List.mem_filter.mp he
      have hp' : e.peer ≠ some p := of_decide_eq_true hp
      exact ⟨he, hp'⟩

omit [PeerQueue Q] in
theorem inv_start : (start : SharedWants Q).Inv :=
  ⟨PeerManager.exact_new, fun _ he => absurd he List.not_mem_nil⟩

/-- As long as no cancel of a removal takes what a session has passed on and waits for, it is
outstanding. -/
theorem kept_of_clear (acts : List Act) (hok : Meets step Clear (start : SharedWants Q) acts) :
    Always step Kept (start : SharedWants Q) acts :=
  always_of_meets (fun _ h => h.kept) (fun _ a h hok => inv_step a h hok) acts inv_start hok

/-! ## What the interest manager sees to -/

/-- No want is passed on while a removal that returned it is in progress. -/
def Apart (s : SharedWants Q) : Act → Prop
  | .sendWants _ _ bs hs => ∀ ks ∈ s.removing, ∀ w ∈ bs ++ hs, w ∉ ks
  | .broadcastWantHaves _ ws _ => ∀ ks ∈ s.removing, ∀ w ∈ ws, w ∉ ks
  | _ => True

/-- Who waits for a want is recorded as interested, and no removal in progress has it. -/
structure Recorded (s : SharedWants Q) : Prop where
  interest : ∀ e ∈ s.passed, s.sim.find e.session e.want ≠ none
  free : ∀ ks ∈ s.removing, ∀ e ∈ s.passed, e.want ∉ ks

omit [PeerQueue Q] in
/-- A removal: of what is still waited for, the interest stays, and so it is not
returned. -/
theorem Recorded.remove (h : s.Recorded) {ses : SessionID} {r : SessionInterestManager × List Want}
    {left : List Pass} (hleft : ∀ e ∈ left, e ∈ s.passed)
    (hfind : ∀ e ∈ left, r.1.find e.session e.want = s.sim.find e.session e.want)
    (hret : ∀ w ∈ r.2, s.sim.OnlyFor ses w)
    (hother : ∀ e ∈ left, e.want ∈ r.2 → e.session ≠ ses) :
    Recorded { s with sim := r.1, removing := s.removing ++ [r.2], passed := left } := by
  refine ⟨fun e he => ?_, fun ks hks e he => ?_⟩
  · dsimp only
    rw [hfind e he]
    exact h.interest e (hleft e he)
  · rcases List.mem_append.mp hks with hks | hks
    · exact h.free ks hks e (hleft e he)
    · rw [List.mem_singleton.mp hks]
      intro hw
      exact h.interest e (hleft e he) ((hret _ hw).2 e.session (hother e he hw))

theorem recorded_step (a : Act) (h : s.Recorded) (hok : s.Apart a) : (s.step a).Recorded := by
  -- what is newly passed on has its session's interest, and is in no removal
  have hpass : ∀ ses ws peer (new : List Pass) (pm : PeerManager Q),
      (∀ e ∈ new, e ∈ s.passes ses ws peer) → (∀ ks ∈ s.removing, ∀ w ∈ ws, w ∉ ks) →
        Recorded { s with pm := pm, passed := s.passed ++ new } := by
    intro ses ws peer new pm hnew hfree
    refine ⟨fun e he => ?_, fun ks hks e he => ?_⟩
    · rcases List.mem_append.mp he with he | he
      · exact h.interest e he
      · obtain ⟨⟨-, hf⟩, rfl, -⟩ := mem_passes.mp (hnew e he)
        exact hf
    · rcases List.mem_append.mp he with he | he
      · exact h.free ks hks e he
      · exact hfree ks hks e.want (mem_passes.mp (hnew e he)).1.1
  cases a with
  | recordSessionInterest ses ks =>
      refine ⟨fun e he => ?_, h.free⟩
      show (s.sim.recordSessionInterest ses ks).find _ _ ≠ none
      rw [find_recordSessionInterest]
      split
      · exact Option.some_ne_none true
      · exact h.interest e he
  | sendWants ses p bs hs =>
      refine hpass ses (bs ++ hs) (some p) _ _ (fun e he => ?_) hok
      split at he
      · exact he
      · exact absurd he List.not_mem_nil
  | broadcastWantHaves ses ws o => exact hpass ses ws none _ _ (fun e he => he) hok
  | removeSession ses o =>
      have hne : ∀ e ∈ s.passed.filter fun e => e.session ≠ ses, e.session ≠ ses :=
        fun e he => of_decide_eq_true (List.mem_filter.mp he).2
      refine h.remove (fun e he => (List.mem_filter.mp he).1) (fun e he => ?_)
        (fun w hw => mem_removeSession.mp hw) fun e he _ => hne e he
      rw [find_removeSession, if_neg (hne e he)]
  | removeSessionInterested ses ws =>
      have hne : ∀ e ∈ s.passed.filter fun e => ¬ (e.session = ses ∧ e.want ∈ ws),
          ¬ (e.session = ses ∧ e.want ∈ ws) :=
        fun e he => of_decide_eq_true (List.mem_filter.mp he).2
      refine h.remove (fun e he => (List.mem_filter.mp he).1) (fun e he => ?_)
        (fun w hw => (mem_removeSessionInterested.mp hw).2)
        fun e he hw hses => hne e he ⟨hses, ?_⟩
      · rw [find_removeSessionInterested, if_neg (hne e he)]
      · exact (mem_removeSessionInterested.mp hw).1
  | sendCancels i o =>
      rw [step]
      split
      · exact h
      · exact ⟨h.interest, fun ks hks => h.free ks (List.mem_of_mem_eraseIdx hks)⟩
  | receive ws o | disconnected p ob oh os =>
      exact ⟨fun e he => h.interest e (List.mem_filter.mp he).1,
        fun ks hks e he => h.free ks hks e (List.mem_filter.mp he).1⟩
  | connected p ob os => exact ⟨h.interest, h.free⟩

omit [PeerQueue Q] in
theorem Recorded.clear (h : s.Recorded) (a : Act) : s.Clear a := by
  cases a with
  | sendCancels i o => exact fun ks hks => h.free ks (List.mem_of_getElem? hks)
  | _ => trivial

/-- **The check of a removal is good for its cancel** if nobody passes the wants on in
between: a want is returned only if no other session is interested in it, and whoever
waits for a want is. -/
theorem clear_of_apart (acts : List Act) (hok : Meets step Apart (start : SharedWants Q) acts) :
    Meets step Clear (start : SharedWants Q) acts :=
  meets_of_meets (fun _ a h => h.clear a) (fun _ a h hok => recorded_step a h hok) acts
    ⟨fun _ he => absurd he List.not_mem_nil, fun _ hks => absurd hks List.not_mem_nil⟩ hok

/-- **A removal cancels no other session's want**, as long as its cancel comes before anyone
else has passed the want on: in a run in which no cancel of a removal takes a want that a
session has passed on and waits for, whenever no removal is in progress all that was
passed on is outstanding at the peers it was passed on for.  The check of the interest
manager sees to that in every run in which no want is passed on between the two steps of a
removal that returned it. -/
theorem removal_keeps_others (acts : List Act) :
    (Meets step Clear (start : SharedWants Q) acts →
      Always step Kept (start : SharedWants Q) acts) ∧
    (Meets step Apart (start : SharedWants Q) acts →
      Always step Kept (start : SharedWants Q) acts) :=
  ⟨kept_of_clear acts, fun hok => kept_of_clear acts (clear_of_apart acts hok)⟩

instance (s : SharedWants Q) : (a : Act) → Decidable (s.Clear a)
  | .sendCancels i _ =>
      inferInstanceAs (Decidable (∀ ks ∈ s.removing[i]?, ∀ e ∈ s.passed, e.want ∉ ks))
  | .recordSessionInterest .. | .sendWants .. | .broadcastWantHaves .. | .removeSession ..
  | .removeSessionInterested .. | .receive .. | .connected .. | .disconnected .. =>
      .isTrue trivial

instance (s : SharedWants Q) : (a : Act) → Decidable (s.Apart a)
  | .sendWants _ _ bs hs =>
      inferInstanceAs (Decidable (∀ ks ∈ s.removing, ∀ w ∈ bs ++ hs, w ∉ ks))
  | .broadcastWantHaves _ ws _ =>
      inferInstanceAs (Decidable (∀ ks ∈ s.removing, ∀ w ∈ ws, w ∉ ks))
  | .recordSessionInterest .. | .removeSession .. | .removeSessionInterested .. | .sendCancels ..
  | .receive .. | .connected .. | .disconnected .. => .isTrue trivial

/-- One session is removed and its want cancelled, then another one asks the same peer, and
everyone, for it. -/
theorem kept_one_after_the_other :
    let w : Want := ⟨⟨[1]⟩, []⟩
    let p : PeerID := ⟨[7]⟩
    let acts : List Act := [.connected p .stored .stored, .recordSessionInterest 1 [w],
      .sendWants 1 p [w] [], .removeSession 1 .stored, .recordSessionInterest 2 [w],
      .sendCancels 0 .stored, .sendWants 2 p [w] [], .broadcastWantHaves 2 [w] .stored]
    let s := run step (start : SharedWants (List QueueCall)) acts
    Meets step Clear (start : SharedWants (List QueueCall)) acts ∧
      Meets step Apart (start : SharedWants (List QueueCall)) acts ∧ s.removing = [] ∧
      s.passed = [⟨2, w, some p⟩, ⟨2, w, none⟩] ∧
      Always step Kept (start : SharedWants (List QueueCall)) acts := by
  intro w p acts s
  have hok : Meets step Clear (start : SharedWants (List QueueCall)) acts := by decide
  exact ⟨hok, by decide, by decide, by decide,
    (removal_keeps_others acts).1 hok⟩

/-- The second session records its interest and asks the peer between the two steps of the
removal: it is left waiting for a want that the peer no longer has. -/
theorem removal_cancels_other :
    let w : Want := ⟨⟨[1]⟩, []⟩
    let p : PeerID := ⟨[7]⟩
    let acts : List Act := [.connected p .stored .stored, .recordSessionInterest 1 [w],
      .sendWants 1 p [w] [], .removeSession 1 .stored, .recordSessionInterest 2 [w],
      .sendWants 2 p [w] [], .sendCancels 0 .stored]
    let s := run step (start : SharedWants (List QueueCall)) acts
    s.removing = [] ∧ s.passed = [⟨2, w, some p⟩] ∧ s.sim.find 2 w = some true ∧
      p ∈ s.pm.peerQueues ∧ s.pm.peerQueues.lookup p =
        some [.addWants [w] [], .addWants [] [], .addCancels [w]] ∧
      ¬ s.Kept := by
  intro w p acts s
  have hrem : s.removing = [] := by decide
  have hpass : s.passed = [⟨2, w, some p⟩] := by decide
  refine ⟨hrem, hpass, by decide, by decide, by decide, fun h => ?_⟩
  have hstands : s.pm.asked.Outstanding p w :=
    h hrem ⟨2, w, some p⟩ (hpass ▸ List.mem_singleton_self _)
  revert hstands
  decide

end SharedWants

end BitswapAuth
