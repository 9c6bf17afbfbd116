/-
# `BitswapAuth.Node.Entries` — what a session passes on has an entry

A want comes to the peer manager from many places in a session: the queue of
what is to be fetched, the live wants and the order in which they became live,
the wants the sender tracks, and the operations and changes that are on their
way between the two loops.  Some of these are out of date; a want stays in the
order after its block has come.  What they have in common is that a want gets
there from a want operation only, and that operation has recorded it with the
interest manager before.

`Noted` says this of one session, with the kind of want as a parameter, and
`Entered` of the node: for every session the kind is that the session has an
entry.  An entry stays for as long as its session does, so nothing is left to
show when blocks come or calls are cancelled.
-/
import BitswapAuth.Node.Cancel

namespace BitswapAuth

open Lib

namespace Session

/-- If the sender sent the operation, its wants are of a kind. -/
def OpNoted (P : Want → Prop) (o : Op) : Prop := FromSender o → ∀ w ∈ o.wants, P w

/-- All wants that the session can pass on are of a kind. -/
structure Noted (P : Want → Prop) (s : Session) : Prop where
  sw : s.sw.Within P
  tracked : ∀ w ∈ s.sws.wants, P w
  incoming : ∀ o ∈ s.incoming, OpNoted P o
  blockedOps : ∀ o ∈ s.blockedOps, OpNoted P o
  changes : ∀ c ∈ s.changes, ∀ w ∈ c.add, P w
  blockedChanges : ∀ c ∈ s.blockedChanges, ∀ w ∈ c.add, P w
  loop : ∀ newks, s.loop = .adding newks → ∀ w ∈ newks, P w

variable {s : Session} {P : Want → Prop}

theorem noted_new (sid : SessionID) (rng : Nat → Draw) (d d' : Nat) :
    Noted P (Session.new sid rng d d') where
  sw := SessionWants.within_new _
  tracked w hw := absurd hw (AList.notMem_empty w)
  incoming o ho := absurd ho List.not_mem_nil
  blockedOps o ho := absurd ho List.not_mem_nil
  changes c hc := absurd hc List.not_mem_nil
  blockedChanges c hc := absurd hc List.not_mem_nil
  loop newks hl := by cases hl

theorem Noted.mono {R : Want → Prop} (hPR : ∀ w, P w → R w) (h : Noted P s) : Noted R s where
  sw := h.sw.imp hPR
  tracked w hw := hPR w (h.tracked w hw)
  incoming o ho hf w hw := hPR w (h.incoming o ho hf w hw)
  blockedOps o ho hf w hw := hPR w (h.blockedOps o ho hf w hw)
  changes c hc w hw := hPR w (h.changes c hc w hw)
  blockedChanges c hc w hw := hPR w (h.blockedChanges c hc w hw)
  loop newks hl w hw := hPR w (h.loop newks hl w hw)

theorem Noted.frame {s' : Session} (h : Noted P s) (hf : Frame s s') (hsw : s'.sw.Within P)
    (hloop : ∀ newks, s'.loop = .adding newks → ∀ w ∈ newks, P w) : Noted P s' where
  sw := hsw
  tracked := hf.sws ▸ h.tracked
  incoming := hf.incoming ▸ h.incoming
  blockedOps := hf.blockedOps ▸ h.blockedOps
  changes := hf.changes ▸ h.changes
  blockedChanges := hf.blockedChanges ▸ h.blockedChanges
  loop := hloop

theorem Noted.same {s' : Session} (h : Noted P s) (hs : Same s s') : Noted P s' :=
  h.frame hs.toFrame (hs.sw ▸ h.sw) (hs.loop ▸ h.loop)

theorem Noted.enqueue (h : Noted P s) {o : Op} (ho : OpNoted P o) : Noted P (s.enqueue o) :=
  { h with
    incoming := List.forall_mem_append.mpr
      ⟨h.incoming, List.forall_mem_singleton.mpr ho⟩ }

/-- An operation that does not come from the sender may name any wants. -/
theorem Noted.enqueue_other (h : Noted P s) {o : Op} (hs : o.op ≠ .opWantsSent)
    (hb : o.op ≠ .opBroadcast) : Noted P (s.enqueue o) :=
  h.enqueue fun hf => hf.elim (absurd · hs) (absurd · hb)

theorem Noted.nonBlockingEnqueue (h : Noted P s) {o : Op} (ho : OpNoted P o) :
    Noted P (s.nonBlockingEnqueue o) := by
  rw [Session.nonBlockingEnqueue]
  split
  · exact h.enqueue ho
  · exact { h with
      blockedOps := List.forall_mem_append.mpr
        ⟨h.blockedOps, List.forall_mem_singleton.mpr ho⟩ }

theorem Noted.addChange (h : Noted P s) {c : Change} (hc : ∀ w ∈ c.add, P w) :
    Noted P (s.addChange c) :=
  { h with
    changes := List.forall_mem_append.mpr
      ⟨h.changes, List.forall_mem_singleton.mpr hc⟩ }

theorem Noted.blockChange (h : Noted P s) {c : Change} (hc : ∀ w ∈ c.add, P w) :
    Noted P { s with blockedChanges := s.blockedChanges ++ [c] } :=
  { h with
    blockedChanges := List.forall_mem_append.mpr
      ⟨h.blockedChanges, List.forall_mem_singleton.mpr hc⟩ }

theorem Noted.signalAvailability (h : Noted P s) (p : PeerID) (b : Bool) :
    Noted P (s.signalAvailability p b) := by
  rw [Session.signalAvailability]
  split
  · exact h.addChange fun w hw => absurd hw List.not_mem_nil
  · exact h.blockChange fun w hw => absurd hw List.not_mem_nil

/-! ## The run loop -/

/-- An operation: what it asks for has to be of the kind as well. -/
theorem Noted.handle (h : Noted P s) (now : Time) (sim : SessionInterestManager) {oper : Op}
    (ho : OpNoted P oper) (hwant : oper.op = .opWant → ∀ w ∈ oper.wants, P w) :
    Noted P (s.handle now sim oper).1 := by
  have hh := handled_handle now s sim oper
  refine h.frame hh.frame ?_ ?_
  · rw [hh.sw]
    obtain ⟨op, keys, wants⟩ := oper
    cases op with
    | opReceive => exact h.sw.blocksReceived now wants
    | opWant => exact ⟨h.sw.toAmong.blocksRequested (hwant rfl), h.sw.order⟩
    | opCancel => exact ⟨h.sw.toAmong.cancelPending keys, h.sw.order⟩
    | opWantsSent => exact h.sw.wantsSent now (ho (.inl rfl))
    | opBroadcast => exact h.sw
  · rw [hh.loop]
    obtain ⟨op, keys, wants⟩ := oper
    cases op with
    | opReceive | opWantsSent | opBroadcast => exact h.loop
    | opWant =>
        intro newks hl
        rw [loopAfter] at hl
        dsimp only at hl
        split at hl
        · cases hl
        · cases hl
          exact hwant rfl
    | opCancel =>
        intro newks hl
        rw [loopAfter] at hl
        dsimp only at hl
        split at hl
        · exact h.loop newks hl
        · cases hl

theorem Noted.sendFirst (h : Noted P s) (now : Time) :
    Noted P (s.sendFirst now).1 ∧ ∀ w ∈ (s.sendFirst now).2, P w := by
  rw [Session.sendFirst]
  dsimp only
  split
  · exact ⟨{ h with loop := fun newks hl => by cases hl }, fun w hw => absurd hw List.not_mem_nil⟩
  · obtain ⟨hsw, hws⟩ := SessionWants.Within.nextWants now
      (s.sw.broadcastLimit - s.sw.liveWants.len) h.sw
    exact ⟨{ h with sw := hsw, loop := fun newks hl => by cases hl }, hws⟩

theorem Noted.broadcast (h : Noted P s) (now : Time) :
    Noted P (s.broadcast now none).1 ∧ ∀ w ∈ (s.broadcast now none).2, P w := by
  obtain ⟨hsw, hws⟩ := h.sw.prepareBroadcast now
  have h' : Noted P { s with sw := (s.sw.prepareBroadcast now).1 } := { h with sw := hsw }
  exact ⟨h'.same (same_broadcast now s none), hws⟩

theorem Noted.handlePeriodicSearch (h : Noted P s) (i d : Nat) :
    ∀ w ∈ (s.handlePeriodicSearch i d).2, P w := by
  rw [Session.handlePeriodicSearch]
  dsimp only
  split
  · rename_i hdef
    intro w hw
    rw [List.mem_singleton.mp hw]
    exact h.sw.randomLiveWant i hdef
  · exact fun w hw => absurd hw List.not_mem_nil

theorem Noted.passAdd (h : Noted P s) : Noted P s.passAdd := by
  rw [Session.passAdd]
  split
  · rename_i newks hl
    split
    · exact { h.addChange (h.loop newks hl) with loop := fun newks hl => by cases hl }
    · exact h
  · exact h

theorem Noted.passCancel (h : Noted P s) : Noted P s.passCancel := by
  rw [Session.passCancel]
  split
  · rename_i wants _
    split
    · have h' : Noted P (s.addChange { cancel := wants }) :=
        h.addChange fun w hw => absurd hw List.not_mem_nil
      exact { h' with loop := fun newks hl => by cases hl }
    · exact h
  · exact h

theorem Noted.passFirst (h : Noted P s) (now : Time) : Noted P (s.passFirst now) := by
  rw [Session.passFirst]
  split
  · exact (h.sendFirst now).1
  · exact h

theorem Noted.enterOp (h : Noted P s) (i : Nat) : Noted P (s.enterOp i) := by
  rcases s.enterOp_cases i with heq | ⟨o, ho, heq⟩
  · rw [heq]
    exact h
  · rw [heq]
    exact { h.enqueue (h.blockedOps o ho) with
      blockedOps := fun o' ho' => h.blockedOps o' (List.mem_of_mem_eraseIdx ho') }

theorem Noted.enterChange (h : Noted P s) (i : Nat) : Noted P (s.enterChange i) := by
  rcases s.enterChange_cases i with heq | ⟨c, hc, heq⟩
  · rw [heq]
    exact h
  · rw [heq]
    exact { h.addChange (h.blockedChanges c hc) with
      blockedChanges := fun c' hc' => h.blockedChanges c' (List.mem_of_mem_eraseIdx hc') }

theorem Noted.foundProvider (h : Noted P s) (i : Nat) (p : PeerID) :
    Noted P (s.foundProvider i p) := by
  rw [Session.foundProvider]
  split
  · exact h
  · split
    · exact h.addChange fun w hw => absurd hw List.not_mem_nil
    · exact h

theorem Noted.onIdleTick (h : Noted P s) (now : Time) : Noted P (s.onIdleTick now) := by
  rw [Session.onIdleTick]
  split
  · have h' : Noted P { s with idleTick := s.idleTick.take } := { h with }
    exact (h'.broadcast now).1
  · exact h

/-! ## The sender -/

/-- A turn: what it tracks and names was tracked, or a change adds it. -/
theorem Noted.turn (h : Noted P s) (bpm : BlockPresenceManager) (k : Nat) :
    Noted P { s with
      sws := (s.sws.onChange bpm (s.changes.take k)).1, changes := s.changes.drop k } ∧
      ∀ e ∈ (s.sws.onChange bpm (s.changes.take k)).2,
        ∀ w ∈ SessionWantSender.namedBy e, P w := by
  have ht := SessionWantSender.turn_onChange bpm (s.changes.take k) s.sws
  have htr : ∀ w ∈ (s.sws.onChange bpm (s.changes.take k)).1.wants, P w := by
    intro w hw
    rcases added_of_trackedAfter ((ht.tracked w).mp hw).1 with hw | ⟨c, hc, hw⟩
    · exact h.tracked w hw
    · exact h.changes c (List.mem_of_mem_take hc) w hw
  refine ⟨{ h with tracked := htr, changes := fun c hc => h.changes c (List.mem_of_mem_drop hc) },
    fun e he w hw => htr w ?_⟩
  exact (SessionWantSender.named_onChange bpm (s.changes.take k) s.sws e he).1 w hw

end Session

/-! ## The node -/

namespace Node

/-- The session has an entry for the want. -/
def Interested (n : Node) (sid : SessionID) (w : Want) : Prop := n.sim.find sid w ≠ none

/-- Only sessions that are there have entries, and each has one for all that it can pass
on. -/
structure Entered (n : Node) : Prop where
  live : ∀ sid w, n.Interested sid w → sid ∈ n.sessions
  noted : ∀ sid s, n.sessions.lookup sid = some s → s.Noted (n.Interested sid)

variable {n : Node} {sid : SessionID}

theorem entered_start : start.Entered where
  live sid w h := absurd rfl h
  noted sid s h := by simp [start] at h

theorem Entered.same (h : n.Entered) {n' : Node} (hsim : n'.sim = n.sim)
    (hs : n'.sessions = n.sessions) : n'.Entered := by
  refine ⟨fun sid w hi => ?_, fun sid s hl => ?_⟩
  · rw [Interested, hsim] at hi
    rw [hs]
    exact h.live sid w hi
  · rw [hs] at hl
    have hn := h.noted sid s hl
    rw [show n'.Interested sid = n.Interested sid from by unfold Interested; rw [hsim]]
    exact hn

theorem Entered.onSession (h : n.Entered) {f : Session → Session}
    (hf : ∀ s, n.sessions.lookup sid = some s → s.Noted (n.Interested sid) →
      (f s).Noted (n.Interested sid)) : (n.onSession sid f).Entered := by
  refine ⟨fun sid' w hi => GoMap.mem_modify.mpr (h.live sid' w hi), fun sid' s' hs' => ?_⟩
  rcases GoMap.lookup_modify_eq_some.mp hs' with ⟨rfl, s, hs, rfl⟩ | ⟨-, hs'⟩
  · exact hf s hs (h.noted sid' s hs)
  · exact h.noted sid' s' hs'

/-- A session put in, with more entries for it. -/
theorem Entered.insert (h : n.Entered) {s : Session} {sim : SessionInterestManager}
    (hkeep : ∀ sid w, n.Interested sid w → sim.find sid w ≠ none)
    (hnew : ∀ sid' w, sim.find sid' w ≠ none → n.Interested sid' w ∨ sid' = sid)
    (hs : s.Noted fun w => sim.find sid w ≠ none) :
    ({ n with sessions := n.sessions.insert sid s, sim := sim } : Node).Entered := by
  refine ⟨fun sid' w hi => (AList.mem_insert _).mpr ?_, fun sid' s' hs' => ?_⟩
  · exact (hnew sid' w hi).symm.imp_right (h.live sid' w)
  · rcases GoMap.lookup_insert_eq_some.mp hs' with ⟨rfl, rfl⟩ | ⟨-, hs'⟩
    · exact hs
    · exact (h.noted sid' s' hs').mono (hkeep sid')

/-- An entry that an operation makes is for a want it asks for. -/
theorem find_handle {s : Session} {now : Time} {oper : Session.Op} {sid' : SessionID} {w : Want}
    (hf : (s.handle now n.sim oper).2.find sid' w ≠ none) :
    n.Interested sid' w ∨ (sid' = s.id ∧ oper.op = .opWant ∧ w ∈ oper.wants) := by
  rw [(Session.handled_handle now s n.sim oper).find] at hf
  obtain ⟨op, keys, wants⟩ := oper
  cases op with
  | opReceive =>
      refine .inl fun hn => hf ?_
      simp [Session.findAfter, hn]
  | opWant =>
      simp only [Session.findAfter] at hf
      split at hf
      · rename_i he
        exact .inr ⟨he.1, rfl, he.2⟩
      · exact .inl hf
  | opCancel | opWantsSent | opBroadcast => exact .inl hf

theorem Entered.takeOp (h : n.Entered) (hwf : n.Wf) (sid : SessionID) (now : Time) :
    (n.takeOp sid now).Entered := by
  rw [Node.takeOp]
  split
  · exact h
  · rename_i s hs
    split
    · rename_i oper rest hloop hinc
      have hid : s.id = sid := (hwf.books sid s hs).id
      set s₁ : Session := { s with incoming := rest } with hs₁
      have hkeep : ∀ sid' w, n.Interested sid' w →
          (s₁.handle now n.sim oper).2.find sid' w ≠ none := by
        intro sid' w hi
        rw [(Session.handled_handle now s₁ n.sim oper).find]
        exact findAfter_ne_none hi
      have hn₁ : s₁.Noted (n.Interested sid) :=
        { h.noted sid s hs with
          incoming := fun o ho =>
            (h.noted sid s hs).incoming o (hinc ▸ List.mem_cons_of_mem oper ho) }
      refine h.insert hkeep (fun sid' w hf => ?_) ?_
      · exact (find_handle hf).imp_right fun hnew => hnew.1.trans hid
      · refine Session.Noted.handle (hn₁.mono (hkeep sid)) now n.sim (fun hf w hw => ?_)
          fun hop w hw => ?_
        · exact hkeep sid w ((h.noted sid s hs).incoming oper (hinc ▸ List.mem_cons_self) hf w hw)
        · rw [(Session.handled_handle now s₁ n.sim oper).find, Session.findAfter, hop]
          dsimp only
          rw [if_pos ⟨hid.symm, hw⟩]
          exact Option.some_ne_none true
    · exact h

theorem Entered.removeSession (h : n.Entered) (sid : SessionID) (o : RangeOrder) :
    (n.removeSession sid o).Entered := by
  rw [Node.removeSession]
  split
  · exact h
  · split
    · have hfind : ∀ sid' w, (n.sim.removeSession sid o).1.find sid' w ≠ none ↔
          sid' ≠ sid ∧ n.Interested sid' w := by
        intro sid' w
        rw [SessionInterestManager.find_removeSession]
        by_cases hne : sid' = sid
        · simp [hne]
        · simp [hne, Interested]
      refine ⟨fun sid' w hi => ?_, fun sid' s' hs' => ?_⟩
      · obtain ⟨hne, hi⟩ := (hfind sid' w).mp hi
        exact AList.mem_erase.mpr ⟨hne, h.live sid' w hi⟩
      · obtain ⟨hne, hs'⟩ := GoMap.lookup_erase_eq_some.mp hs'
        exact (h.noted sid' s' hs').mono fun w hi => (hfind sid' w).mpr ⟨hne, hi⟩
    · exact h

theorem Entered.call (h : n.Entered) {e : Effect}
    (hnamed : ∀ w ∈ SessionWantSender.namedBy e, n.Interested sid w)
    (hno : SessionWantSender.cancelledBy e = none) : (n.call sid e).Entered := by
  cases e with
  | signalUnavailable p =>
      exact h.onSession fun s _ hn => hn.blockChange fun w hw => absurd hw List.not_mem_nil
  | onPeersExhausted ws => exact h.onSession fun s _ hn => hn.nonBlockingEnqueue fun _ => hnamed
  | onSend p bs hs => exact h.onSession fun s _ hn => hn.nonBlockingEnqueue fun _ => hnamed
  | cancelSessionWants ws => cases hno
  | registerSession p | sendWants p bs hs => exact h

/-! ### Requests and incoming blocks -/

theorem Entered.want (h : n.Entered) (i : Nat) (skip : Bool) : (n.want i skip).Entered := by
  rcases n.want_cases i skip with he | ⟨r, -, -, he | he⟩
  · rw [he]
    exact h
  · rw [he]
    exact h.same rfl rfl
  · rw [he]
    have h' : (n.onSession r.session (·.enqueue { op := .opWant, wants := r.wants })).Entered :=
      h.onSession fun s _ hn => hn.enqueue_other (by simp) (by simp)
    exact h'.same rfl rfl

theorem Entered.finish (h : n.Entered) (i : Nat) (lost skip : Bool) :
    (n.finish i lost skip).Entered := by
  rcases n.finish_cases i lost skip with he | ⟨r, -, -, -, ⟨-, he⟩ | he⟩
  · rw [he]
    exact h
  · rw [he]
    exact h.same rfl rfl
  · rw [he]
    have h' : (n.onSession r.session
        (·.enqueue { op := .opCancel, keys := (r.left lost).keys })).Entered :=
      h.onSession fun s _ hn => hn.enqueue_other (by simp) (by simp)
    exact h'.same rfl rfl

theorem Entered.receiveStep (h : n.Entered) (i : Nat) (o : RangeOrder) (skip : Bool) :
    (n.receiveStep i o skip).Entered := by
  rw [Node.receiveStep]
  split
  · exact h
  · rename_i t ht
    split
    · exact h.same rfl rfl
    · exact h.same rfl rfl
    · rename_i ids _
      cases ids with
      | nil => exact h.same rfl rfl
      | cons sid ids =>
          rw [Node.tell]
          split <;> exact h.same rfl rfl
    · rename_i sid ks haves dontHaves ids _
      rcases n.update_cases i t sid ks haves dontHaves ids with he | ⟨-, he⟩ | ⟨s, -, he⟩
      · rw [he]
        exact h
      · rw [he]
        exact h.same rfl rfl
      · rw [he]
        have h' : (n.onSession sid
            (·.addChange { update := ⟨t.sender, ks, haves, dontHaves⟩ })).Entered :=
          h.onSession fun s _ hn => hn.addChange fun w hw => absurd hw List.not_mem_nil
        exact h'.same rfl rfl
    · rename_i sid ks ids _
      rcases n.receive_cases i sid ks ids skip with he | ⟨-, he⟩ | ⟨s, -, he⟩
      · rw [he]
        exact h
      · rw [he]
        exact h.same rfl rfl
      · rw [he]
        have h' : (n.onSession sid (·.enqueue { op := .opReceive, wants := ks })).Entered :=
          h.onSession fun s _ hn => hn.enqueue_other (by simp) (by simp)
        exact h'.same rfl rfl
    · rw [Node.publish]
      split <;> exact h.same rfl rfl

theorem Entered.step (h : n.Entered) (hwf : n.Wf) (a : Action) (ha : ∀ sid, a ≠ .onChange sid) :
    (n.step a).Entered := by
  cases a with
  | newSession sid rng d d' =>
      rw [Node.step]
      split
      · exact h.insert (fun _ _ hi => hi) (fun _ _ hi => .inl hi) (Session.noted_new sid rng d d')
      · exact h
  | takeOp sid now => exact h.takeOp hwf sid now
  | add sid => exact h.onSession fun s _ hn => hn.passAdd
  | sendFirst sid now => exact h.onSession fun s _ hn => hn.passFirst now
  | cancelWants sid => exact h.onSession fun s _ hn => hn.passCancel
  | enterOp sid i => exact h.onSession fun s _ hn => hn.enterOp i
  | onChange sid => exact absurd rfl (ha sid)
  | signal sid p b => exact h.onSession fun s _ hn => hn.signalAvailability p b
  | enterChange sid i => exact h.onSession fun s _ hn => hn.enterChange i
  | provider sid i p => exact h.onSession fun s _ hn => hn.foundProvider i p
  | idleTick sid now => exact h.onSession fun s _ hn => hn.onIdleTick now
  | periodicSearch sid i d => exact h.onSession fun s _ hn => hn.same (s.same_onSearchTick i d)
  | setBaseTickDelay sid d => exact h.onSession fun s _ hn => hn.same (s.same_onBaseTickDelay d)
  | fireIdle sid | fireSearch sid | shutdown sid => exact h.onSession fun s _ hn => { hn with }
  | removeSession sid o => exact h.removeSession sid o
  | getBlocks sid wants =>
      rw [Node.step]
      split
      · exact h
      · exact h.same rfl rfl
  | want i skip => exact h.want i skip
  | finish i lost skip => exact h.finish i lost skip
  | receiveStep i o skip => exact h.receiveStep i o skip
  | cancel i | unsubscribe i | deliver i => exact h.same rfl rfl
  | receiveBlocksFrom sender blks haves dontHaves => exact h.same rfl rfl

end Node

end BitswapAuth
