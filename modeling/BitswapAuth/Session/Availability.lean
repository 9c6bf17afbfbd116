/-
# `BitswapAuth.Session.Availability` — sessions that follow their peers

A session hears of the loss of a peer through the peer manager: it registers for
a peer, and from then on a connect or disconnect puts a signal into the
sender's channel of changes.  If the channel is full the signal waits in a
goroutine of its own, and may be overtaken.

Registration comes with the first message or provider record of a peer that the
sender *processes*, and such an update counts as a word that the peer is there.
If the peer is gone by then, or never was connected, no signal will ever say so,
and a want may be sent to it and wait for good.  `Sound` excludes this: what a
batch takes on the strength of a message alone is true at that moment.  Then a
want is never left waiting for a peer that is not connected
(`waits_for_connected`).
-/
import BitswapAuth.Session.Candidates
import BitswapAuth.PeerManager.Told

namespace BitswapAuth

open Lib

/-! ## Signals in a list of changes -/

/-- The change `SignalAvailability` makes. -/
def Change.signal (p : PeerID) (isAvailable : Bool) : Change := { availability := ⟨p, isAvailable⟩ }

/-- The last signal on a peer. -/
def signalOn (changes : List Change) (p : PeerID) : Option Bool :=
  lastWord p (changes.flatMap Change.signals)

theorem signalOn_append (xs ys : List Change) (p : PeerID) :
    signalOn (xs ++ ys) p = (signalOn ys p).or (signalOn xs p) := by
  unfold signalOn
  rw [List.flatMap_append, lastWord_append]

/-- A peer's own signal, as the next change, is the last one on it and on no other
peer. -/
theorem signalOn_append_signal {changes : List Change} {p q : PeerID} {b : Bool}
    (hp : p ≠ .empty) :
    signalOn (changes ++ [.signal q b]) p = if q = p then some b else signalOn changes p := by
  rw [signalOn_append]
  by_cases hq : q = p
  · subst hq
    simp [signalOn, Change.signal, Change.signals, hp, lastWord]
  · by_cases he : q = .empty
    · simp [signalOn, Change.signal, Change.signals, he, hp.symm, lastWord]
    · simp [signalOn, Change.signal, Change.signals, he, hq, lastWord]

theorem mem_signals_append_signal {changes : List Change} {p q : PeerID} {b b' : Bool}
    (h : (p, b) ∈ (changes ++ [Change.signal q b']).flatMap Change.signals) :
    (p, b) ∈ changes.flatMap Change.signals ∨ (p = q ∧ b = b') := by
  rw [List.flatMap_append, List.mem_append] at h
  refine h.imp_right fun h => ?_
  unfold Change.signals at h
  simp only [Change.signal, List.flatMap_cons, List.flatMap_nil, List.append_nil] at h
  split at h
  · exact Prod.mk.injEq .. |>.mp (List.mem_singleton.mp h)
  · exact absurd h (by simp)

theorem mem_of_lastWord {p : PeerID} {b : Bool} : ∀ {l : List (PeerID × Bool)},
    lastWord p l = some b → (p, b) ∈ l
  | [], h => by simp [lastWord] at h
  | e :: l, h => by
      rw [lastWord] at h
      cases hl : lastWord p l with
      | some b' =>
          rw [hl] at h
          obtain rfl := Option.some.inj h
          exact List.mem_cons_of_mem e (mem_of_lastWord hl)
      | none =>
          rw [hl, Option.none_or] at h
          split at h
          · rename_i he
            obtain rfl := Option.some.inj h
            rw [← he]
            exact List.mem_cons_self
          · exact absurd h (by simp)

theorem lastWord_ne_none {p : PeerID} {b : Bool} : ∀ {l : List (PeerID × Bool)},
    (p, b) ∈ l → lastWord p l ≠ none
  | e :: l, h, hn => by
      rw [lastWord, Option.or_eq_none_iff] at hn
      rcases List.mem_cons.mp h with rfl | h
      · simp at hn
      · exact lastWord_ne_none h hn.1

theorem signalOn_eq_none_of_wordOn {changes : List Change} {p : PeerID}
    (h : wordOn changes p = none) : signalOn changes p = none := by
  cases hs : signalOn changes p with
  | none => rfl
  | some b =>
      obtain ⟨ch, hch, hmem⟩ := List.mem_flatMap.mp (mem_of_lastWord hs)
      exact absurd h (lastWord_ne_none
        (List.mem_flatMap.mpr ⟨ch, hch, List.mem_append_right _ hmem⟩))

/-- A peer is taken to be available because of an update, or of a signal. -/
theorem cause_of_wordOn {changes : List Change} {p : PeerID} (h : wordOn changes p = some true) :
    (∃ upd ∈ updatesOf changes, upd.signalsAvailable = true ∧ upd.sender = p) ∨
      (p, true) ∈ changes.flatMap Change.signals := by
  obtain ⟨ch, hch, hmem⟩ := List.mem_flatMap.mp (mem_of_lastWord h)
  rcases List.mem_append.mp hmem with hmem | hmem
  · unfold Change.hints at hmem
    split at hmem
    · rename_i hs
      obtain ⟨rfl, -⟩ := Prod.mk.injEq .. |>.mp (List.mem_singleton.mp hmem)
      refine .inl ⟨ch.update, ?_, hs.2, rfl⟩
      exact List.mem_filter.mpr ⟨List.mem_map.mpr ⟨ch, hch, rfl⟩, by simpa using hs.1⟩
    · exact absurd hmem (by simp)
  · exact .inr (List.mem_flatMap.mpr ⟨ch, hch, hmem⟩)

/-! ## Who is signalled -/

namespace PeerManager

variable {Q : Type}

/-- A session is signalled if it is registered for the peer. -/
theorem mem_signalAvailability {pm : PeerManager Q} {p : PeerID} {b : Bool} {o : RangeOrder}
    {sid : SessionID} : ⟨sid, p, b⟩ ∈ pm.signalAvailability p b o ↔
      sid ∈ pm.sessions ∧ pm.peerSessions.Linked p sid := by
  rw [signalAvailability, GoMap.Linked]
  split
  · rename_i h; simp [h]
  · rename_i ses h
    simp only [List.mem_map, List.mem_filter, RangeOrder.mem_range, GoSet.has_eq_true,
      Signal.mk.injEq, and_true, exists_eq_right, h, Option.some.injEq, exists_eq_left']
    exact and_comm

end PeerManager

/-! ## A want sender, its channel, and the peer manager -/

/-- The peer manager and one want sender, with the changes in the sender's channel
and those that wait, each in a goroutine, for room in it. -/
structure SenderSys (Q : Type) where
  pm : PeerManager Q
  sws : SessionWantSender
  changes : List Change
  waiting : List Change

/-- The atomic steps.  `enter` is a waiting change getting into the channel. -/
inductive SenderAction where
  | connected (p : PeerID) (ob os : RangeOrder)
  | disconnected (p : PeerID) (ob oh os : RangeOrder)
  | add (ws : List Want)
  | cancel (ws : List Want)
  | update (u : Update)
  | enter (i : Nat)
  | onChange (bpm : BlockPresenceManager)

namespace SenderSys

open SessionWantSender

variable {Q : Type}

/-- A sender that has seen nothing yet. -/
def start (sid : SessionID) (rng : Nat → Draw) : SenderSys Q := ⟨.new, .new sid rng, [], []⟩

/-- The channel has room. -/
def HasRoom (s : SenderSys Q) : Prop := s.changes.length < changesBufferSize

instance (s : SenderSys Q) : Decidable s.HasRoom := inferInstanceAs (Decidable (_ < _))

/-- `addChange`, which is blocked while there is no room. -/
def addChange (s : SenderSys Q) (c : Change) : SenderSys Q :=
  if s.HasRoom then { s with changes := s.changes ++ [c] } else s

/-- `addChangeNonBlocking`. -/
def addChangeNonBlocking (s : SenderSys Q) (c : Change) : SenderSys Q :=
  if s.HasRoom then { s with changes := s.changes ++ [c] }
  else { s with waiting := s.waiting ++ [c] }

/-- The signal to this session among those the peer manager sends, if it is there. -/
def hear (s : SenderSys Q) (signals : List Signal) (p : PeerID) (isAvailable : Bool) :
    SenderSys Q :=
  if ⟨s.sws.sessionID, p, isAvailable⟩ ∈ signals then
    s.addChangeNonBlocking (.signal p isAvailable)
  else s

/-- The changes that the next `onChange` collects. -/
def batch (s : SenderSys Q) : List Change := s.changes.take changesBufferSize

section

variable [PeerQueue Q]

/-- A call of `onChange` on the peer manager, or of a peer's removal from the
session, which is made in a goroutine. -/
def call (s : SenderSys Q) : Effect → SenderSys Q
  | .registerSession p => { s with pm := s.pm.registerSession p s.sws.sessionID }
  | .sendWants p wantBlocks wantHaves => { s with pm := s.pm.sendWants p wantBlocks wantHaves }
  | .signalUnavailable p => { s with waiting := s.waiting ++ [.signal p false] }
  | .onPeersExhausted _ | .cancelSessionWants _ | .onSend _ _ _ => s

/-- One step. -/
def step (s : SenderSys Q) : SenderAction → SenderSys Q
  | .connected p ob os =>
      let r := s.pm.connected p ob os
      { s with pm := r.1 }.hear r.2 p true
  | .disconnected p ob oh os =>
      let r := s.pm.disconnected p ob oh os
      { s with pm := r.1 }.hear r.2 p false
  | .add ws => if ws.isEmpty then s else s.addChange { add := ws }
  | .cancel ws => if ws.isEmpty then s else s.addChange { cancel := ws }
  | .update u =>
      if u.ks.isEmpty && u.haves.isEmpty && u.dontHaves.isEmpty then s
      else s.addChange { update := u }
  | .enter i =>
      match s.waiting[i]? with
      | none => s
      | some c =>
          if s.HasRoom then { s with changes := s.changes ++ [c], waiting := s.waiting.eraseIdx i }
          else s
  | .onChange bpm =>
      if s.changes.isEmpty then s
      else
        let r := s.sws.onChange bpm s.batch
        r.2.foldl call { s with sws := r.1, changes := s.changes.drop changesBufferSize }

end

/-- No change is left to be processed. -/
def Drained (s : SenderSys Q) : Prop := s.changes = [] ∧ s.waiting = []

/-- With no change left, every want that waits for a peer waits for a connected
one. -/
def WaitsForConnected (s : SenderSys Q) : Prop :=
  s.Drained → ∀ w wi, s.sws.wants.lookup w = some wi → wi.sentTo ≠ .empty →
    wi.sentTo ∈ s.pm.peerQueues

/-- The session is registered for the peer. -/
def Registered (s : SenderSys Q) (p : PeerID) : Prop :=
  s.sws.sessionID ∈ s.pm.sessions ∧ s.pm.peerSessions.Linked p s.sws.sessionID

/-- The condition on a step.  The signal of a connect finds room in the channel; a
peer that a batch has as available without a signal is connected; and whoever
speaks of a want is in the session, unless it is known not to have the block. -/
def Sound (s : SenderSys Q) : SenderAction → Prop
  | .connected p _ _ => s.Registered p → s.HasRoom
  | .onChange bpm =>
      (∀ p, wordOn s.batch p = some true → signalOn s.batch p ≠ some true → p ∈ s.pm.peerQueues) ∧
        ∀ w q, s.sws.Speaks s.batch w q → bpm.presenceOf q w.cid ≠ .BPDontHave →
          s.sws.MemberAfter s.batch q
  | _ => True

/-! ## The invariant -/

/-- What holds of peers that are not connected: their loss is on its way to the
sender, or it does not have them in the session. -/
structure Inv (s : SenderSys Q) : Prop where
  members : Members (· ≠ .BPDontHave) s.sws
  waiting : ∀ c ∈ s.waiting, ∃ p, c = .signal p false
  registered : ∀ p, p ∈ s.sws.spm.peers ∨ (p, true) ∈ s.changes.flatMap Change.signals →
    s.Registered p
  absent : ∀ p, p ≠ .empty → p ∉ s.pm.peerQueues → .signal p false ∈ s.waiting ∨
    signalOn s.changes p = some false ∨ (signalOn s.changes p = none ∧ p ∉ s.sws.spm.peers)

variable {s : SenderSys Q}

theorem inv_start (sid : SessionID) (rng : Nat → Draw) : (start sid rng : SenderSys Q).Inv where
  members := members_new sid rng
  waiting _ h := absurd h (by simp [start])
  registered p h := by simp [start, new, SessionPeerManager.new] at h
  absent p _ _ := .inr (.inr ⟨rfl, by simp [start, new, SessionPeerManager.new]⟩)

theorem Inv.waitsForConnected (h : s.Inv) : s.WaitsForConnected := by
  rintro ⟨hc, hw⟩ w wi hwi hne
  by_contra hq
  have hp := h.members.sentTo w wi hwi hne
  rcases h.absent _ hne hq with hx | hx | ⟨-, hx⟩
  · rw [hw] at hx
    exact absurd hx (by simp)
  · rw [hc] at hx
    exact absurd hx (by simp [signalOn, lastWord])
  · exact hx hp

/-! ## The steps keep it -/

theorem Inv.addChange (h : s.Inv) {c : Change} (hc : c.signals = []) : (s.addChange c).Inv := by
  rw [SenderSys.addChange]
  split
  · have hsig : (s.changes ++ [c]).flatMap Change.signals = s.changes.flatMap Change.signals := by
      simp [hc]
    refine ⟨h.members, h.waiting, fun p hp => h.registered p ?_, fun p hp hq => ?_⟩
    · rwa [← hsig]
    · have hon : signalOn (s.changes ++ [c]) p = signalOn s.changes p := by
        rw [signalOn, hsig, signalOn]
      have hold := h.absent p hp hq
      rwa [← hon] at hold
  · exact h

/-- A signal comes into the channel, with the peer manager and the waiting changes as they are
then: the peers that are not connected are that of the signal, which says so, and others as
before. -/
theorem Inv.append_signal (h : s.Inv) {pm : PeerManager Q} {waiting : List Change} {p : PeerID}
    {b : Bool} (hreg : ∀ q, s.Registered q → Registered { s with pm := pm } q)
    (hp : b = true → s.Registered p) (hwait : ∀ c ∈ waiting, c ∈ s.waiting)
    (habs : ∀ q, q ∉ pm.peerQueues → p = q ∧ b = false ∨ p ≠ q ∧ q ∉ s.pm.peerQueues ∧
      (.signal q false ∈ s.waiting → .signal q false ∈ waiting)) :
    Inv { s with pm := pm, changes := s.changes ++ [.signal p b], waiting := waiting } := by
  refine ⟨h.members, fun c hc => h.waiting c (hwait c hc), fun q hq => hreg q ?_,
    fun q hne hq => ?_⟩
  · rcases hq with hq | hq
    · exact h.registered q (.inl hq)
    · rcases mem_signals_append_signal hq with hq | ⟨rfl, hb⟩
      · exact h.registered q (.inr hq)
      · exact hp hb.symm
  · have hsig : signalOn (s.changes ++ [.signal p b]) q = _ := signalOn_append_signal hne
    rcases habs q hq with ⟨rfl, rfl⟩ | ⟨hpq, hq, hw⟩
    · exact .inr (.inl (hsig.trans (if_pos rfl)))
    · have hold := h.absent q hne hq
      rw [← hsig.trans (if_neg hpq)] at hold
      exact hold.imp_left hw

/-- A waiting change gets into the channel. -/
theorem Inv.enter (h : s.Inv) {i : Nat} {c : Change} (hi : s.waiting[i]? = some c) :
    Inv { s with changes := s.changes ++ [c], waiting := s.waiting.eraseIdx i } := by
  obtain ⟨p, rfl⟩ := h.waiting c (List.mem_of_getElem? hi)
  refine h.append_signal (fun _ hq => hq) (fun hb => Bool.noConfusion hb)
    (fun _ => List.mem_of_mem_eraseIdx) fun q hq => ?_
  by_cases hp : p = q
  · exact .inl ⟨hp, rfl⟩
  · refine .inr ⟨hp, hq, fun hw => ?_⟩
    obtain ⟨j, hj⟩ := List.mem_iff_getElem?.mp hw
    refine List.mem_eraseIdx_iff_getElem?.mpr ⟨j, ?_, hj⟩
    rintro rfl
    rw [hi] at hj
    exact hp (congrArg (fun c => c.availability.target) (Option.some.inj hj))

section

variable [PeerQueue Q]

theorem registered_connected {p q : PeerID} {ob os : RangeOrder} :
    Registered { s with pm := (s.pm.connected p ob os).1 } q ↔ s.Registered q := by
  show _ ∈ (s.pm.getOrCreate p).sessions ∧ (s.pm.getOrCreate p).peerSessions.Linked _ _ ↔ _
  rw [PeerManager.getOrCreate]
  split <;> exact Iff.rfl

theorem Inv.connected (h : s.Inv) {p : PeerID} {ob os : RangeOrder}
    (hok : s.Registered p → s.HasRoom) : (s.step (.connected p ob os)).Inv := by
  set pm := (s.pm.connected p ob os).1 with hpm
  -- only the peer itself becomes connected
  have habs : ∀ q, q ∉ pm.peerQueues → q ≠ p ∧ q ∉ s.pm.peerQueues := fun q hq =>
    not_or.mp fun hq' => hq (PeerManager.mem_peerQueues_connected.mpr hq')
  have hreg : ∀ q, Registered { s with pm := pm } q ↔ s.Registered q :=
    fun q => registered_connected
  have hsig : ⟨s.sws.sessionID, p, true⟩ ∈ pm.signalAvailability p true os ↔ s.Registered p :=
    PeerManager.mem_signalAvailability.trans (hreg p)
  show (hear { s with pm := pm } (pm.signalAvailability p true os) p true).Inv
  rw [hear]
  by_cases hr : s.Registered p
  · rw [if_pos (hsig.mpr hr)]
    rw [addChangeNonBlocking]
    rw [if_pos (show HasRoom { s with pm := pm } from hok hr)]
    refine h.append_signal (fun q => (hreg q).mpr) (fun _ => hr) (fun _ hc => hc) fun q hq => ?_
    obtain ⟨hqp, hq⟩ := habs q hq
    exact .inr ⟨hqp.symm, hq, fun hw => hw⟩
  · rw [if_neg fun hr' => hr (hsig.mp hr')]
    exact ⟨h.members, h.waiting, fun q hq => (hreg q).mpr (h.registered q hq),
      fun q hne hq => h.absent q hne (habs q hq).2⟩

theorem Inv.disconnected (h : s.Inv) {p : PeerID} {ob oh os : RangeOrder} :
    (s.step (.disconnected p ob oh os)).Inv := by
  by_cases hp : p ∈ s.pm.peerQueues
  swap
  · have hr : s.pm.disconnected p ob oh os = (s.pm, []) := if_neg hp
    have hstep : s.step (.disconnected p ob oh os) = s := by
      show hear { s with pm := (s.pm.disconnected p ob oh os).1 } _ p false = s
      rw [hr]
      exact if_neg (by simp)
    rw [hstep]
    exact h
  set pm := (s.pm.disconnected p ob oh os).1 with hpm
  have hr : s.pm.disconnected p ob oh os =
      (_, s.pm.signalAvailability p false os) := if_pos hp
  have habs : ∀ q, q ∉ pm.peerQueues → q = p ∨ q ∉ s.pm.peerQueues := fun q hq => by
    by_contra hno
    obtain ⟨hqp, hq'⟩ := not_or.mp hno
    exact hq (PeerManager.mem_peerQueues_disconnected.mpr ⟨hqp, not_not.mp hq'⟩)
  have hreg : ∀ q, Registered { s with pm := pm } q ↔ s.Registered q := fun q => by
    rw [hpm, hr]
    exact Iff.rfl
  have hsig : ⟨s.sws.sessionID, p, false⟩ ∈ (s.pm.disconnected p ob oh os).2 ↔ s.Registered p := by
    rw [hr]
    exact PeerManager.mem_signalAvailability
  show (hear { s with pm := pm } (s.pm.disconnected p ob oh os).2 p false).Inv
  rw [hear]
  by_cases hrp : s.Registered p
  · rw [if_pos (hsig.mpr hrp)]
    rw [addChangeNonBlocking]
    split
    · refine h.append_signal (fun q => (hreg q).mpr) (fun hb => Bool.noConfusion hb)
        (fun _ hc => hc) fun q hq => ?_
      by_cases hqp : p = q
      · exact .inl ⟨hqp, rfl⟩
      · exact .inr ⟨hqp, (habs q hq).resolve_left (Ne.symm hqp), fun hw => hw⟩
    · refine ⟨h.members, fun c hc => ?_, fun q hq => (hreg q).mpr (h.registered q hq),
        fun q hne hq => ?_⟩
      · rcases List.mem_append.mp hc with hc | hc
        · exact h.waiting c hc
        · exact ⟨p, List.mem_singleton.mp hc⟩
      · rcases habs q hq with rfl | hq
        · exact .inl (List.mem_append_right _ List.mem_cons_self)
        · exact (h.absent q hne hq).imp_left (List.mem_append_left _)
  · -- a peer the session is not registered for is not in it, and no signal has it available
    rw [if_neg fun hr' => hrp (hsig.mp hr')]
    refine ⟨h.members, h.waiting, fun q hq => (hreg q).mpr (h.registered q hq), fun q hne hq => ?_⟩
    rcases habs q hq with rfl | hq
    · right
      cases hs : signalOn s.changes q with
      | none => exact .inr ⟨rfl, fun hm => hrp (h.registered q (.inl hm))⟩
      | some b =>
          cases b with
          | false => exact .inl rfl
          | true => exact absurd (h.registered q (.inr (mem_of_lastWord hs))) hrp
    · exact h.absent q hne hq

/-- What the calls of `onChange` may change. -/
structure Called (calls : List Effect) (s s' : SenderSys Q) : Prop where
  sws : s'.sws = s.sws
  changes : s'.changes = s.changes
  peerQueues : ∀ q, q ∈ s'.pm.peerQueues ↔ q ∈ s.pm.peerQueues
  registered : ∀ q, s.Registered q ∨ .registerSession q ∈ calls → s'.Registered q
  waits : ∀ c ∈ s.waiting, c ∈ s'.waiting
  waiting : ∀ c ∈ s'.waiting, c ∈ s.waiting ∨ ∃ p, c = .signal p false

theorem called_call (s : SenderSys Q) (e : Effect) : Called [e] s (s.call e) := by
  cases e with
  | registerSession p =>
      refine ⟨rfl, rfl, fun q => Iff.rfl, fun q hq => ?_, fun c hc => hc, fun c hc => .inl hc⟩
      refine ⟨GoSet.mem_add.mpr ?_, GoMap.linked_link.mpr ?_⟩
      · exact hq.elim (fun hq => .inr hq.1) fun _ => .inl rfl
      · rcases hq with hq | hq
        · exact .inr hq.2
        · exact .inl ⟨Effect.registerSession.inj (List.mem_singleton.mp hq), rfl⟩
  | sendWants p bs hs =>
      refine ⟨rfl, rfl, fun q => PeerManager.mem_peerQueues_sendWants, fun q hq => ?_,
        fun c hc => hc, fun c hc => .inl hc⟩
      have hr : s.Registered q := hq.resolve_right (by simp)
      show _ ∈ (s.pm.sendWants p bs hs).sessions ∧ (s.pm.sendWants p bs hs).peerSessions.Linked _ _
      rw [PeerManager.sendWants]
      split <;> exact hr
  | signalUnavailable p =>
      refine ⟨rfl, rfl, fun q => Iff.rfl, fun q hq => hq.resolve_right (by simp),
        fun c hc => List.mem_append_left _ hc, fun c hc => ?_⟩
      refine (List.mem_append.mp hc).imp_right fun hc => ⟨p, List.mem_singleton.mp hc⟩
  | onPeersExhausted ws | cancelSessionWants ws | onSend p bs hs =>
      exact ⟨rfl, rfl, fun q => Iff.rfl, fun q hq => hq.resolve_right (by simp), fun c hc => hc,
        fun c hc => .inl hc⟩

theorem called_foldl : ∀ (calls : List Effect) (s : SenderSys Q),
    Called calls s (calls.foldl call s)
  | [], s => ⟨rfl, rfl, fun q => Iff.rfl, fun q hq => hq.resolve_right (by simp), fun c hc => hc,
      fun c hc => .inl hc⟩
  | e :: calls, s => by
      have h := called_call s e
      have ih := called_foldl calls (s.call e)
      refine ⟨ih.sws.trans h.sws, ih.changes.trans h.changes,
        fun q => (ih.peerQueues q).trans (h.peerQueues q), fun q hq => ih.registered q ?_,
        fun c hc => ih.waits c (h.waits c hc), fun c hc => ?_⟩
      · rcases hq with hq | hq
        · exact .inl (h.registered q (.inl hq))
        · rcases List.mem_cons.mp hq with rfl | hq
          · exact .inl (h.registered q (.inr List.mem_cons_self))
          · exact .inr hq
      · exact (ih.waiting c hc).elim (h.waiting c) .inr

theorem Inv.onChange (h : s.Inv) {bpm : BlockPresenceManager} (hok : s.Sound (.onChange bpm)) :
    (s.step (.onChange bpm)).Inv := by
  show (if s.changes.isEmpty then s else _).Inv
  split
  · exact h
  obtain ⟨hhint, hspeak⟩ := hok
  have ht := turn_onChange bpm s.batch s.sws
  set r := s.sws.onChange bpm s.batch with hr
  set s₁ : SenderSys Q :=
    { s with sws := r.1, changes := s.changes.drop changesBufferSize } with hs₁
  have hc := called_foldl r.2 s₁
  have hsws : s₁.sws = r.1 := rfl
  have hsplit : s.batch ++ s₁.changes = s.changes := List.take_append_drop _ _
  have hsig : ∀ q, signalOn s.changes q = (signalOn s₁.changes q).or (signalOn s.batch q) :=
    fun q => by rw [← hsplit, signalOn_append]
  have hreg : ∀ q, s.Registered q → s₁.Registered q := fun q hq => by
    rw [Registered, hsws, ht.session]
    exact hq
  have hin : ∀ q b, (q, b) ∈ s.batch.flatMap Change.signals ∨
      (q, b) ∈ s₁.changes.flatMap Change.signals → (q, b) ∈ s.changes.flatMap Change.signals := by
    intro q b hq
    rw [← hsplit, List.flatMap_append]
    exact List.mem_append.mpr hq
  refine ⟨?_, fun c hcw => ?_, fun q hq => ?_, fun q hne hq => ?_⟩
  · rw [hc.sws]
    exact h.members.turn (fun _ hb => hb) ⟨bpm, s.batch⟩ hspeak
  · exact (hc.waiting c hcw).elim (h.waiting c) id
  · rw [hc.sws, hc.changes] at hq
    refine hc.registered q ?_
    rcases hq with hq | hq
    · rw [hsws, ht.peers] at hq
      rcases hq with hw | ⟨-, hm⟩
      · rcases cause_of_wordOn hw with ⟨upd, hupd, ha, rfl⟩ | hs
        · exact .inr (ht.registers upd hupd ha)
        · exact .inl (hreg q (h.registered q (.inr (hin q true (.inl hs)))))
      · exact .inl (hreg q (h.registered q (.inl hm)))
    · exact .inl (hreg q (h.registered q (.inr (hin q true (.inr hq)))))
  · rw [hc.sws, hc.changes]
    have hq : q ∉ s.pm.peerQueues := fun hq' => hq ((hc.peerQueues q).mpr hq')
    refine (h.absent q hne hq).imp (hc.waits _) fun hq' => ?_
    cases hd : signalOn s₁.changes q with
    | some b =>
        rw [hsig, hd, Option.some_or] at hq'
        exact .inl (hq'.resolve_right fun hq' => absurd hq'.1 (by simp))
    | none =>
        rw [hsig, hd, Option.none_or] at hq'
        refine .inr ⟨rfl, fun hm => ?_⟩
        rw [hsws, ht.peers] at hm
        rcases hm with hw | ⟨hw, hm⟩
        · refine hq (hhint q hw fun hs => ?_)
          rw [hs] at hq'
          exact absurd hq' (by simp)
        · have hs := signalOn_eq_none_of_wordOn hw
          exact (hq'.resolve_left (by rw [hs]; simp)).2 hm

theorem Inv.step (h : s.Inv) (a : SenderAction) (hok : s.Sound a) : (s.step a).Inv := by
  cases a with
  | connected p ob os => exact h.connected hok
  | disconnected p ob oh os => exact h.disconnected
  | add ws =>
      show (if ws.isEmpty then s else _).Inv
      split
      · exact h
      · exact h.addChange rfl
  | cancel ws =>
      show (if ws.isEmpty then s else _).Inv
      split
      · exact h
      · exact h.addChange rfl
  | update u =>
      show (if u.ks.isEmpty && u.haves.isEmpty && u.dontHaves.isEmpty then s else _).Inv
      split
      · exact h
      · exact h.addChange rfl
  | enter i =>
      show (match s.waiting[i]? with | none => s | some c => _).Inv
      split
      · exact h
      · rename_i c hi
        split
        · exact h.enter hi
        · exact h
  | onChange bpm => exact h.onChange hok

/-- **No want waits for a disconnected peer**, in any state of a run whose steps are
sound. -/
theorem waits_for_connected (sid : SessionID) (rng : Nat → Draw) (as : List SenderAction)
    (hok : Meets step Sound (start sid rng : SenderSys Q) as) :
    Always step WaitsForConnected (start sid rng : SenderSys Q) as :=
  always_of_meets (fun _ h => h.waitsForConnected) (fun _ a h hok => h.step a hok) as
    (inv_start sid rng) hok

end

/-- A want is sent to a connected peer on its HAVE, and the peer is lost: each step
is sound, so in the end the want does not wait for the peer. -/
theorem waits_for_connected_lost_peer :
    let w : Want := ⟨⟨[1]⟩, []⟩
    let p : PeerID := ⟨[7]⟩
    let as : List SenderAction := [.connected p .stored .stored, .add [w],
      .update ⟨p, [], [w], []⟩, .onChange .new, .disconnected p .stored .stored .stored,
      .onChange .new]
    let s : SenderSys (List QueueCall) := start 1 fun _ => .plain
    Meets step Sound s as ∧ Always step WaitsForConnected s as := by
  intro w p as s
  have hne : p ≠ .empty := by decide
  have hmeets : Meets step Sound s as := by
    have h₁ : ∀ s : SenderSys (List QueueCall),
        s.batch = [{ add := [w] }, { update := ⟨p, [], [w], []⟩ }] → p ∈ s.pm.peerQueues →
        s.Sound (.onChange .new) := by
      intro s hb hp
      have hword : ∀ q, wordOn s.batch q = if p = q then some true else none := fun q => by
        simp [hb, wordOn, Change.words, Change.hints, Change.signals, Update.signalsAvailable,
          lastWord, hne]
      refine ⟨fun q hq _ => ?_, ?_⟩
      · rw [hword] at hq
        split at hq
        · rename_i he
          exact he ▸ hp
        · exact absurd hq (by simp)
      · rintro w' q ⟨-, -, hs⟩ -
        refine .inl ?_
        rw [hword, if_pos]
        obtain ⟨rfl, -⟩ : p = q ∧ w' = w := by simpa [hb, updatesOf, Denies, Offers, hne] using hs
        rfl
    have h₂ : ∀ s : SenderSys (List QueueCall), s.batch = [.signal p false] →
        s.Sound (.onChange .new) := by
      intro s hb
      refine ⟨fun q hq => ?_, ?_⟩
      · simp [hb, wordOn, Change.words, Change.hints, Change.signals, Change.signal, lastWord,
          hne] at hq
      · rintro w' q ⟨-, -, hs⟩
        simp [hb, updatesOf, Denies, Offers, Change.signal] at hs
    refine ⟨fun _ => by decide, trivial, trivial, h₁ _ ?_ ?_, trivial, h₂ _ ?_, trivial⟩
    · decide
    · decide
    · decide
  exact ⟨hmeets, waits_for_connected 1 (fun _ => .plain) as hmeets⟩

/-- A provider record of a peer that never was connected: the want is sent to it
and waits, with no change left. -/
theorem waits_for_unconnected_provider :
    let w : Want := ⟨⟨[1]⟩, []⟩
    let p : PeerID := ⟨[7]⟩
    let s := run step (start 1 fun _ => .plain : SenderSys (List QueueCall))
      [.add [w], .update ⟨p, [], [w], []⟩, .onChange .new]
    s.Drained ∧ (s.sws.wants.lookup w).map (fun wi => wi.sentTo) = some p ∧
      p ∉ s.pm.peerQueues ∧ ¬ s.WaitsForConnected := by
  intro w p s
  have hdr : s.Drained := by
    refine ⟨?_, ?_⟩
    · decide
    · decide
  have hsent : (s.sws.wants.lookup w).map (fun wi => wi.sentTo) = some p := by decide
  have hp : p ∉ s.pm.peerQueues := by decide
  refine ⟨hdr, hsent, hp, fun h => ?_⟩
  obtain ⟨wi, hwi, hto⟩ := Option.map_eq_some_iff.mp hsent
  have hto : wi.sentTo = p := hto
  exact hp (hto ▸ h hdr w wi hwi (by rw [hto]; decide))

end SenderSys

end BitswapAuth
