/-
# `BitswapAuth.Node.Books` — a session's books hold only what was asked for

Everything a session keeps about wants, in its queue and map, in the sender, in
both channels and with the interest manager, concerns wants that some call of
`GetBlocks` on that session asked for.  And nothing in a session ever names a
want in order to cancel it: the cancel operation of a request carries CIDs, and
the sender is told of the wants of the operation, of which there are none.
-/
import BitswapAuth.Node.Node
import BitswapAuth.Session.Calls

namespace BitswapAuth

open Lib

namespace Session

/-! ## Steps of one session -/

/-- What the run loop leaves to others. -/
structure Frame (s s' : Session) : Prop where
  id : s'.id = s.id
  sws : s'.sws = s.sws
  incoming : s'.incoming = s.incoming
  changes : s'.changes = s.changes
  blockedOps : s'.blockedOps = s.blockedOps
  blockedChanges : s'.blockedChanges = s.blockedChanges
  done : s'.done = s.done

/-- What timers, ticks and searches have nothing to do with. -/
structure Same (s s' : Session) : Prop extends Frame s s' where
  sw : s'.sw = s.sw
  loop : s'.loop = s.loop

variable {s : Session} {sid : SessionID} {P : Want → Prop}

theorem Frame.refl (s : Session) : Frame s s := ⟨rfl, rfl, rfl, rfl, rfl, rfl, rfl⟩

theorem Same.refl (s : Session) : Same s s := ⟨.refl s, rfl, rfl⟩

theorem same_broadcast (now : Time) (s : Session) (wants : Option (List Want)) :
    Same { s with sw := (s.toBroadcast now wants).1 } (s.broadcast now wants).1 := by
  rw [broadcast]
  dsimp only
  generalize s.toBroadcast now wants = r
  have h : Same { s with sw := r.1 } (({ s with sw := r.1 } : Session).searchFirst r.2) := by
    unfold searchFirst
    split
    · exact .refl _
    · split <;> exact ⟨⟨rfl, rfl, rfl, rfl, rfl, rfl, rfl⟩, rfl, rfl⟩
  rw [countTick]
  split <;> exact ⟨⟨h.id, h.sws, h.incoming, h.changes, h.blockedOps, h.blockedChanges, h.done⟩,
    h.sw, h.loop⟩

theorem same_handlePeriodicSearch (s : Session) (i d : Nat) :
    Same s (s.handlePeriodicSearch i d).1 := by
  rw [handlePeriodicSearch]
  dsimp only
  split <;> exact ⟨⟨rfl, rfl, rfl, rfl, rfl, rfl, rfl⟩, rfl, rfl⟩

theorem same_handleReceive (now : Time) (s : Session) (ks : List Want) :
    Same { s with sw := (s.sw.blocksReceived now ks).sw } (s.handleReceive now ks).1 := by
  rw [handleReceive]
  dsimp only
  split <;> exact ⟨⟨rfl, rfl, rfl, rfl, rfl, rfl, rfl⟩, rfl, rfl⟩

theorem snd_handleReceive (now : Time) (s : Session) (ks : List Want) :
    (s.handleReceive now ks).2 = (s.sw.blocksReceived now ks).wanted := by
  rw [handleReceive]
  dsimp only
  split
  · rename_i h
    exact (List.isEmpty_iff.mp h).symm
  · rfl

/-- The wants of the session after an operation. -/
def swAfter (now : Time) (s : Session) (oper : Op) : SessionWants :=
  match oper.op with
  | .opReceive => (s.sw.blocksReceived now oper.wants).sw
  | .opWant => s.sw.blocksRequested oper.wants
  | .opCancel => s.sw.cancelPending oper.keys
  | .opWantsSent => s.sw.wantsSent now oper.wants
  | .opBroadcast => s.sw

/-- Where the loop is after an operation. -/
def loopAfter (s : Session) (oper : Op) : Loop :=
  match oper.op with
  | .opWant => if oper.wants.isEmpty then .sending else .adding oper.wants
  | .opCancel => if oper.wants.isEmpty then s.loop else .cancelling oper.wants
  | _ => s.loop

/-- The entries of the interest manager after an operation. -/
def findAfter (now : Time) (s : Session) (sim : SessionInterestManager) (oper : Op)
    (sid : SessionID) (w : Want) : Option Bool :=
  match oper.op with
  | .opReceive =>
      if sid = s.id ∧ w ∈ (s.sw.blocksReceived now oper.wants).wanted then
        (sim.find sid w).map fun _ => false
      else sim.find sid w
  | .opWant => if sid = s.id ∧ w ∈ oper.wants then some true else sim.find sid w
  | _ => sim.find sid w

/-- What an operation does. -/
structure Handled (now : Time) (oper : Op) (s : Session) (sim : SessionInterestManager)
    (r : Session × SessionInterestManager) : Prop where
  frame : Frame s r.1
  sw : r.1.sw = s.swAfter now oper
  loop : r.1.loop = s.loopAfter oper
  find : ∀ sid w, r.2.find sid w = s.findAfter now sim oper sid w

theorem handled_handle (now : Time) (s : Session) (sim : SessionInterestManager) (oper : Op) :
    Handled now oper s sim (s.handle now sim oper) := by
  obtain ⟨op, keys, wants⟩ := oper
  cases op with
  | opReceive =>
      have h := same_handleReceive now s wants
      refine ⟨⟨h.id, h.sws, h.incoming, h.changes, h.blockedOps, h.blockedChanges, h.done⟩, h.sw,
        h.loop, fun sid w => ?_⟩
      show (sim.removeSessionWants s.id (s.handleReceive now wants).2).find sid w = _
      rw [snd_handleReceive, SessionInterestManager.find_removeSessionWants]
      rfl
  | opWant =>
      show Handled _ _ s sim (s.wantBlocks wants, sim.recordSessionInterest s.id wants)
      have hfind : ∀ sid w, (sim.recordSessionInterest s.id wants).find sid w =
          s.findAfter now sim ⟨.opWant, keys, wants⟩ sid w :=
        fun sid w => SessionInterestManager.find_recordSessionInterest wants sim
      rw [wantBlocks]
      split
      · rename_i hw
        obtain rfl := List.isEmpty_iff.mp hw
        exact ⟨⟨rfl, rfl, rfl, rfl, rfl, rfl, rfl⟩, rfl, rfl, hfind⟩
      · rename_i hw
        exact ⟨⟨rfl, rfl, rfl, rfl, rfl, rfl, rfl⟩, rfl, (if_neg hw).symm, hfind⟩
  | opCancel =>
      show Handled _ _ s sim (if wants.isEmpty then _ else _, sim)
      split
      · rename_i hw
        exact ⟨⟨rfl, rfl, rfl, rfl, rfl, rfl, rfl⟩, rfl, (if_pos hw).symm, fun sid w => rfl⟩
      · rename_i hw
        exact ⟨⟨rfl, rfl, rfl, rfl, rfl, rfl, rfl⟩, rfl, (if_neg hw).symm, fun sid w => rfl⟩
  | opWantsSent =>
      exact ⟨⟨rfl, rfl, rfl, rfl, rfl, rfl, rfl⟩, rfl, rfl, fun sid w => rfl⟩
  | opBroadcast =>
      have h := same_broadcast now s (some wants)
      exact ⟨⟨h.id, h.sws, h.incoming, h.changes, h.blockedOps, h.blockedChanges, h.done⟩, h.sw,
        h.loop, fun sid w => rfl⟩

/-! ## What is on a session's books -/

/-- The wants of an operation are of a kind, and a cancel operation has none. -/
def OpOf (P : Want → Prop) (o : Op) : Prop :=
  match o.op with
  | .opReceive | .opWant | .opWantsSent => ∀ w ∈ o.wants, P w
  | .opCancel => o.wants = [] ∧ ∀ c ∈ o.keys, ∃ w, P w ∧ w.cid = c
  | .opBroadcast => True

/-- An operation that the want sender sends, and that may have to wait for room. -/
def FromSender (o : Op) : Prop := o.op = .opWantsSent ∨ o.op = .opBroadcast

/-- The wants a change adds are of a kind, and it cancels none. -/
def ChangeOf (P : Want → Prop) (c : Change) : Prop := (∀ w ∈ c.add, P w) ∧ c.cancel = []

/-- A change that is only about availability, and that may have to wait for room. -/
def OnlySignals (c : Change) : Prop := c.add = [] ∧ c.cancel = []

/-- The wants the loop has in hand are of a kind, and it is not cancelling. -/
def LoopOf (P : Want → Prop) : Loop → Prop
  | .adding newks => ∀ w ∈ newks, P w
  | .cancelling _ => False
  | .select | .sending => True

/-- All wants on the books of the session are of a kind. -/
structure Books (sid : SessionID) (P : Want → Prop) (s : Session) : Prop where
  id : s.id = sid
  sw : s.sw.Among P
  tracked : ∀ w ∈ s.sws.wants, P w
  incoming : ∀ o ∈ s.incoming, OpOf P o
  blockedOps : ∀ o ∈ s.blockedOps, OpOf P o ∧ FromSender o
  changes : ∀ c ∈ s.changes, ChangeOf P c
  blockedChanges : ∀ c ∈ s.blockedChanges, OnlySignals c
  loop : LoopOf P s.loop

theorem OpOf.mono {Q : Want → Prop} (hPQ : ∀ w, P w → Q w) {o : Op} (h : OpOf P o) :
    OpOf Q o := by
  obtain ⟨op, keys, wants⟩ := o
  cases op with
  | opReceive | opWant | opWantsSent => exact fun w hw => hPQ w (h w hw)
  | opCancel => exact ⟨h.1, fun c hc => (h.2 c hc).imp fun w hw => ⟨hPQ w hw.1, hw.2⟩⟩
  | opBroadcast => trivial

theorem ChangeOf.mono {Q : Want → Prop} (hPQ : ∀ w, P w → Q w) {c : Change} (h : ChangeOf P c) :
    ChangeOf Q c :=
  ⟨fun w hw => hPQ w (h.1 w hw), h.2⟩

theorem LoopOf.mono {Q : Want → Prop} (hPQ : ∀ w, P w → Q w) :
    ∀ {l : Loop}, LoopOf P l → LoopOf Q l
  | .select, _ | .sending, _ => trivial
  | .adding _, h => fun w hw => hPQ w (h w hw)

theorem Books.mono {Q : Want → Prop} (hPQ : ∀ w, P w → Q w) (h : Books sid P s) :
    Books sid Q s where
  id := h.id
  sw := h.sw.imp hPQ
  tracked w hw := hPQ w (h.tracked w hw)
  incoming o ho := (h.incoming o ho).mono hPQ
  blockedOps o ho := (h.blockedOps o ho).imp_left (·.mono hPQ)
  changes c hc := (h.changes c hc).mono hPQ
  blockedChanges := h.blockedChanges
  loop := h.loop.mono hPQ

theorem books_new (sid : SessionID) (rng : Nat → Draw) (d d' : Nat) :
    Books sid P (Session.new sid rng d d') where
  id := rfl
  sw := SessionWants.among_new _
  tracked w hw := by simp [Session.new, SessionWantSender.new] at hw
  incoming o ho := by simp [Session.new] at ho
  blockedOps o ho := by simp [Session.new] at ho
  changes c hc := by simp [Session.new] at hc
  blockedChanges c hc := by simp [Session.new] at hc
  loop := trivial

theorem Books.frame {s' : Session} (h : Books sid P s) (hf : Frame s s') (hsw : s'.sw.Among P)
    (hloop : LoopOf P s'.loop) : Books sid P s' where
  id := hf.id.trans h.id
  sw := hsw
  tracked := hf.sws ▸ h.tracked
  incoming := hf.incoming ▸ h.incoming
  blockedOps := hf.blockedOps ▸ h.blockedOps
  changes := hf.changes ▸ h.changes
  blockedChanges := hf.blockedChanges ▸ h.blockedChanges
  loop := hloop

theorem Books.same {s' : Session} (h : Books sid P s) (hs : Same s s') : Books sid P s' :=
  h.frame hs.toFrame (hs.sw ▸ h.sw) (hs.loop ▸ h.loop)

theorem Books.enqueue (h : Books sid P s) {o : Op} (ho : OpOf P o) : Books sid P (s.enqueue o) :=
  { h with
    incoming := List.forall_mem_append.mpr
      ⟨h.incoming, List.forall_mem_singleton.mpr ho⟩ }

theorem Books.nonBlockingEnqueue (h : Books sid P s) {o : Op} (ho : OpOf P o)
    (hfrom : FromSender o) : Books sid P (s.nonBlockingEnqueue o) := by
  rw [Session.nonBlockingEnqueue]
  split
  · exact h.enqueue ho
  · exact { h with
      blockedOps := List.forall_mem_append.mpr
        ⟨h.blockedOps, List.forall_mem_singleton.mpr ⟨ho, hfrom⟩⟩ }

theorem Books.addChange (h : Books sid P s) {c : Change} (hc : ChangeOf P c) :
    Books sid P (s.addChange c) :=
  { h with
    changes := List.forall_mem_append.mpr
      ⟨h.changes, List.forall_mem_singleton.mpr hc⟩ }

theorem OnlySignals.changeOf {c : Change} (h : OnlySignals c) : ChangeOf P c :=
  ⟨fun w hw => by simp [h.1] at hw, h.2⟩

theorem Books.blockChange (h : Books sid P s) {c : Change} (hc : OnlySignals c) :
    Books sid P { s with blockedChanges := s.blockedChanges ++ [c] } :=
  { h with
    blockedChanges := List.forall_mem_append.mpr
      ⟨h.blockedChanges, List.forall_mem_singleton.mpr hc⟩ }

theorem Books.signalAvailability (h : Books sid P s) (p : PeerID) (b : Bool) :
    Books sid P (s.signalAvailability p b) := by
  have hc : OnlySignals { availability := ⟨p, b⟩ } := ⟨rfl, rfl⟩
  rw [Session.signalAvailability]
  split
  · exact h.addChange hc.changeOf
  · exact h.blockChange hc

/-- The wants after an operation are those before it and those it asks for. -/
theorem Books.swAfter (h : Books sid P s) {oper : Op} (ho : OpOf P oper) (now : Time) :
    (s.swAfter now oper).Among P := by
  obtain ⟨op, keys, wants⟩ := oper
  cases op with
  | opReceive => exact (SessionWants.received_blocksReceived now s.sw wants).among P h.sw
  | opWant => exact h.sw.blocksRequested ho
  | opCancel => exact h.sw.cancelPending keys
  | opWantsSent => exact (SessionWants.resent_wantsSent now wants h.sw ho).among
  | opBroadcast => exact h.sw

theorem LoopOf.loopAfter (h : LoopOf P s.loop) {oper : Op} (ho : OpOf P oper) :
    LoopOf P (s.loopAfter oper) := by
  obtain ⟨op, keys, wants⟩ := oper
  cases op with
  | opReceive | opWantsSent | opBroadcast => exact h
  | opWant =>
      show LoopOf P (if wants.isEmpty then .sending else .adding wants)
      split
      · trivial
      · exact ho
  | opCancel =>
      show LoopOf P (if wants.isEmpty then s.loop else .cancelling wants)
      rw [if_pos (List.isEmpty_iff.mpr ho.1)]
      exact h

theorem Books.sendFirst (h : Books sid P s) (now : Time) : Books sid P (s.sendFirst now).1 := by
  rw [Session.sendFirst]
  dsimp only
  split
  · exact { h with loop := trivial }
  · exact { h with
      sw := (SessionWants.resent_getNextWants now h.sw).among
      loop := trivial }

theorem Books.broadcast (h : Books sid P s) (now : Time) (ws : Option (List Want)) :
    Books sid P (s.broadcast now ws).1 := by
  refine Books.same ?_ (same_broadcast now s ws)
  refine { h with sw := ?_ }
  cases ws with
  | some ws => exact h.sw
  | none => exact (SessionWants.resent_prepareBroadcast now h.sw).among

theorem Books.passAdd (h : Books sid P s) : Books sid P s.passAdd := by
  rw [Session.passAdd]
  split
  · rename_i newks hl
    split
    · have hks : LoopOf P (.adding newks) := hl ▸ h.loop
      have hc : ChangeOf P { add := newks } := ⟨hks, rfl⟩
      exact { h.addChange hc with loop := trivial }
    · exact h
  · exact h

theorem Books.passFirst (h : Books sid P s) (now : Time) : Books sid P (s.passFirst now) := by
  rw [Session.passFirst]
  split
  · exact h.sendFirst now
  · exact h

theorem Books.passCancel (h : Books sid P s) : Books sid P s.passCancel := by
  rw [Session.passCancel]
  split
  · rename_i wants hl
    have hno : LoopOf P (.cancelling wants) := hl ▸ h.loop
    exact False.elim hno
  · exact h

theorem Books.enterOp (h : Books sid P s) (i : Nat) : Books sid P (s.enterOp i) := by
  rcases s.enterOp_cases i with heq | ⟨o, ho, heq⟩
  · rw [heq]
    exact h
  · rw [heq]
    exact { h.enqueue (h.blockedOps o ho).1 with
      blockedOps := fun o' ho' => h.blockedOps o' (List.mem_of_mem_eraseIdx ho') }

theorem Books.enterChange (h : Books sid P s) (i : Nat) : Books sid P (s.enterChange i) := by
  rcases s.enterChange_cases i with heq | ⟨c, hc, heq⟩
  · rw [heq]
    exact h
  · rw [heq]
    exact { h.addChange (h.blockedChanges c hc).changeOf with
      blockedChanges := fun c' hc' => h.blockedChanges c' (List.mem_of_mem_eraseIdx hc') }

theorem Books.foundProvider (h : Books sid P s) (i : Nat) (p : PeerID) :
    Books sid P (s.foundProvider i p) := by
  rw [Session.foundProvider]
  split
  · exact h
  · split
    · exact h.addChange ⟨by simp, rfl⟩
    · exact h

theorem Books.onIdleTick (h : Books sid P s) (now : Time) : Books sid P (s.onIdleTick now) := by
  rw [Session.onIdleTick]
  split
  · have h' : Books sid P { s with idleTick := s.idleTick.take } := { h with }
    exact h'.broadcast now none
  · exact h

theorem same_onSearchTick (s : Session) (i d : Nat) : Same s (s.onSearchTick i d) := by
  rw [onSearchTick]
  split
  · have h := same_handlePeriodicSearch
      { s with periodicSearchTimer := s.periodicSearchTimer.take } i d
    exact ⟨⟨h.id, h.sws, h.incoming, h.changes, h.blockedOps, h.blockedChanges, h.done⟩, h.sw,
      h.loop⟩
  · exact .refl s

theorem same_onBaseTickDelay (s : Session) (d : Nat) : Same s (s.onBaseTickDelay d) := by
  rw [onBaseTickDelay]
  split
  · exact ⟨⟨rfl, rfl, rfl, rfl, rfl, rfl, rfl⟩, rfl, rfl⟩
  · exact .refl s

end Session

/-! ## Requests -/

namespace Request

/-- The sets and lists of a request fit together. -/
structure Ok (r : Request) : Prop where
  keys : ∀ c ∈ r.keys, c ∈ r.remaining
  remaining : ∀ c ∈ r.remaining, ∃ w ∈ r.wants, w.cid = c
  got : ∀ b, b ∈ r.promise ∨ b ∈ r.out → b.cid ∉ r.keys
  started : r.started = false → r.asked = false ∧ r.closed = false
  listening : r.listening = true → r.closed = false

variable {r : Request}

theorem ok_subscribe (sid : SessionID) (wants : List Want) : (subscribe sid wants).Ok where
  keys _ h := h
  remaining _ h := mem_cidsOf.mp h
  got b h := by simp [subscribe] at h
  started _ := ⟨rfl, rfl⟩
  listening _ := rfl

theorem Ok.publish (h : r.Ok) (b : AuthBlock) : (r.publish b).Ok := by
  rw [Request.publish]
  split
  · refine ⟨fun c hc => h.keys c (GoSet.mem_remove.mp hc).2, h.remaining, fun b' hb' => ?_,
      h.started, h.listening⟩
    show b'.cid ∉ r.keys.remove b.cid
    rw [GoSet.mem_remove]
    rintro ⟨hne, hk⟩
    rcases hb' with hb' | hb'
    · rcases List.mem_append.mp hb' with hb' | hb'
      · exact h.got b' (.inl hb') hk
      · exact hne (congrArg AuthBlock.cid (List.mem_singleton.mp hb'))
    · exact h.got b' (.inr hb') hk
  · exact h

theorem Ok.deliver (h : r.Ok) : r.deliver.Ok := by
  rw [Request.deliver]
  split
  · exact h
  · rename_i b promise hp
    refine ⟨fun c hc => GoSet.mem_remove.mpr ⟨?_, h.keys c hc⟩,
      fun c hc => h.remaining c (GoSet.mem_remove.mp hc).2, fun b' hb' => h.got b' ?_,
      h.started, h.listening⟩
    · rintro rfl
      exact h.got b (.inl (hp ▸ List.mem_cons_self)) hc
    · rcases hb' with hb' | hb'
      · exact .inl (hp ▸ List.mem_cons_of_mem b hb')
      · rcases List.mem_append.mp hb' with hb' | hb'
        · exact .inr hb'
        · exact .inl (hp ▸ List.mem_singleton.mp hb' ▸ List.mem_cons_self)

theorem Ok.start (h : r.Ok) {asked started : Bool} (hs : started = true) :
    ({ r with asked := asked, started := started } : Request).Ok :=
  ⟨h.keys, h.remaining, h.got, fun hf => absurd (hs.symm.trans hf) (by simp), h.listening⟩

theorem mem_left_of_keys (h : r.Ok) {lost : Bool} {c : Cid} (hc : c ∈ r.keys) :
    c ∈ r.left lost := by
  unfold left
  split
  · rename_i b promise hp
    refine GoSet.mem_remove.mpr ⟨?_, h.keys c hc⟩
    rintro rfl
    exact h.got b (.inl (hp ▸ List.mem_cons_self)) hc
  · exact h.keys c hc

theorem mem_remaining_of_left {lost : Bool} {c : Cid} (hc : c ∈ r.left lost) : c ∈ r.remaining := by
  unfold left at hc
  split at hc
  · exact (GoSet.mem_remove.mp hc).2
  · exact hc

theorem Ok.close (h : r.Ok) (lost : Bool) (hs : r.started = true) : (r.close lost).Ok where
  keys _ hc := mem_left_of_keys h hc
  remaining c hc := h.remaining c (mem_remaining_of_left hc)
  got := h.got
  started hf := absurd (hs.symm.trans hf) (by simp)
  listening hl := absurd hl (by simp [Request.close])

/-- What a request asks for, and of which session. -/
structure Kin (r r' : Request) : Prop where
  session : r'.session = r.session
  wants : r'.wants = r.wants

theorem kin_publish (b : AuthBlock) (r : Request) : Kin r (r.publish b) := by
  rw [Request.publish]
  split <;> exact ⟨rfl, rfl⟩

theorem asked_publish (b : AuthBlock) (r : Request) : (r.publish b).asked = r.asked := by
  rw [Request.publish]
  split <;> rfl

theorem closed_publish (b : AuthBlock) (r : Request) : (r.publish b).closed = r.closed := by
  rw [Request.publish]
  split <;> rfl

theorem mem_keys_publish {b : AuthBlock} {c : Cid} (hc : c ∈ r.keys) (hne : c ≠ b.cid) :
    c ∈ (r.publish b).keys := by
  rw [Request.publish]
  split
  · exact GoSet.mem_remove.mpr ⟨hne, hc⟩
  · exact hc

theorem kin_deliver (r : Request) : Kin r r.deliver := by
  rw [Request.deliver]
  split <;> exact ⟨rfl, rfl⟩

end Request

/-! ## The node -/

/-- The keys a call has picked out for a session are of a kind, and the blocks it
publishes are among those it was made for. -/
structure Receive.Of (P : SessionID → Want → Prop) (t : Receive) : Prop where
  place : match t.place with
    | .updating sid ks _ _ _ | .receiving sid ks _ => ∀ w ∈ ks, P sid w
    | _ => True
  wanted : ∀ b ∈ t.wanted, b.want.cid = b.cid ∧ b.want ∈ t.allKs

namespace Node

/-- A call of `GetBlocks` on the session asked for the want. -/
def Requested (n : Node) (sid : SessionID) (w : Want) : Prop :=
  ∃ r ∈ n.requests, r.session = sid ∧ w ∈ r.wants

/-- No call that is open asks the session for the want. -/
def Unasked (n : Node) (sid : SessionID) (w : Want) : Prop := ∀ r ∈ n.requests, ¬ r.Asks sid w

instance (n : Node) (sid : SessionID) (w : Want) : Decidable (n.Unasked sid w) :=
  inferInstanceAs (Decidable (∀ r ∈ n.requests, _))

/-- The books of all sessions are in order. -/
structure Wf (n : Node) : Prop where
  books : ∀ sid s, n.sessions.lookup sid = some s → s.Books sid (n.Requested sid)
  sim : ∀ sid w, n.sim.find sid w ≠ none → n.Requested sid w
  receives : ∀ t ∈ n.receives, t.Of n.Requested
  requests : ∀ r ∈ n.requests, r.Ok
  cancels : n.cancels = []

variable {n : Node}

theorem wf_start : start.Wf where
  books sid s h := by simp [start] at h
  sim sid w h := by simp [start, SessionInterestManager.new, SessionInterestManager.find,
    SessionInterestManager.sessionsOf] at h
  receives t h := by simp [start] at h
  requests r h := by simp [start] at h
  cancels := rfl

/-! ### Steps of sessions -/

theorem Wf.onSession (h : n.Wf) {sid : SessionID} {f : Session → Session}
    (hf : ∀ s, n.sessions.lookup sid = some s → s.Books sid (n.Requested sid) →
      (f s).Books sid (n.Requested sid)) : (n.onSession sid f).Wf := by
  refine { h with books := fun sid' s' hs' => ?_ }
  rcases GoMap.lookup_modify_eq_some.mp hs' with ⟨rfl, s, hs, rfl⟩ | ⟨-, hs'⟩
  · exact hf s hs (h.books sid' s hs)
  · exact h.books sid' s' hs'

theorem Wf.insert (h : n.Wf) {sid : SessionID} {s : Session} {sim : SessionInterestManager}
    (hb : s.Books sid (n.Requested sid))
    (hsim : ∀ sid w, sim.find sid w ≠ none → n.Requested sid w) :
    ({ n with sessions := n.sessions.insert sid s, sim := sim } : Node).Wf := by
  refine { h with books := fun sid' s' hs' => ?_, sim := hsim }
  rcases GoMap.lookup_insert_eq_some.mp hs' with ⟨rfl, rfl⟩ | ⟨-, hs'⟩
  · exact hb
  · exact h.books sid' s' hs'

theorem Wf.takeOp (h : n.Wf) (sid : SessionID) (now : Time) : (n.takeOp sid now).Wf := by
  rw [Node.takeOp]
  split
  · exact h
  · rename_i s hs
    split
    · rename_i oper rest hloop hinc
      have hb := h.books sid s hs
      have hoper : Session.OpOf (n.Requested sid) oper :=
        hb.incoming oper (hinc ▸ List.mem_cons_self)
      set s₁ : Session := { s with incoming := rest } with hs₁
      have hb₁ : s₁.Books sid (n.Requested sid) :=
        { hb with incoming := fun o ho => hb.incoming o (hinc ▸ List.mem_cons_of_mem oper ho) }
      have hh := Session.handled_handle now s₁ n.sim oper
      refine h.insert (hb₁.frame hh.frame ?_ ?_) fun sid' w hf => ?_
      · rw [hh.sw]
        exact hb₁.swAfter hoper now
      · rw [hh.loop]
        exact hb₁.loop.loopAfter hoper
      · rw [hh.find] at hf
        have hid₁ : s₁.id = sid := hb.id
        -- an entry that an operation makes is for a want it asks for
        obtain ⟨op, keys, wants⟩ := oper
        cases op with
        | opReceive =>
            refine h.sim sid' w fun hn => hf ?_
            simp [Session.findAfter, hn]
        | opWant =>
            simp only [Session.findAfter] at hf
            split at hf
            · rename_i he
              rw [he.1, hid₁]
              exact hoper w he.2
            · exact h.sim sid' w hf
        | opCancel | opWantsSent | opBroadcast => exact h.sim sid' w hf
    · exact h

theorem Wf.call (h : n.Wf) {sid : SessionID} {e : Effect}
    (hsent : ∀ w ∈ SessionWantSender.sentBy e, n.Requested sid w)
    (hno : SessionWantSender.cancelledBy e = none) : (n.call sid e).Wf := by
  cases e with
  | signalUnavailable p =>
      exact h.onSession fun s _ hb => hb.blockChange ⟨rfl, rfl⟩
  | onPeersExhausted ws =>
      exact h.onSession fun s _ hb => hb.nonBlockingEnqueue trivial (.inr rfl)
  | onSend p bs hs =>
      exact h.onSession fun s _ hb => hb.nonBlockingEnqueue hsent (.inl rfl)
  | cancelSessionWants ws => exact absurd hno (by simp [SessionWantSender.cancelledBy])
  | registerSession p | sendWants p bs hs => exact h

theorem call_requests (sid : SessionID) (n : Node) (e : Effect) :
    (n.call sid e).requests = n.requests := by
  cases e <;> rfl

theorem Wf.foldl_call {sid : SessionID} : ∀ (l : List Effect) {n : Node}, n.Wf →
    (∀ e ∈ l, (∀ w ∈ SessionWantSender.sentBy e, n.Requested sid w) ∧
      SessionWantSender.cancelledBy e = none) → (l.foldl (Node.call sid) n).Wf
  | [], _, h, _ => h
  | e :: l, n, h, hl => by
      obtain ⟨hsent, hno⟩ := hl e List.mem_cons_self
      refine Wf.foldl_call l (h.call hsent hno) fun e' he' => ?_
      have hreq : (n.call sid e).Requested = n.Requested := by
        unfold Requested
        rw [call_requests]
      rw [hreq]
      exact hl e' (List.mem_cons_of_mem e he')

/-- What a turn of the sender tracks and names was asked for, and it cancels nothing. -/
theorem Wf.turn (h : n.Wf) {sid : SessionID} {s : Session} (hs : n.sessions.lookup sid = some s)
    (k : Nat) : (∀ w ∈ (s.sws.onChange n.bpm (s.changes.take k)).1.wants, n.Requested sid w) ∧
      ∀ e ∈ (s.sws.onChange n.bpm (s.changes.take k)).2,
        (∀ w ∈ SessionWantSender.sentBy e, n.Requested sid w) ∧
          SessionWantSender.cancelledBy e = none := by
  have hb := h.books sid s hs
  set batch := s.changes.take k with hbatch
  have hin : ∀ c ∈ batch, Session.ChangeOf (n.Requested sid) c :=
    fun c hc => hb.changes c (List.mem_of_mem_take hc)
  have ht := SessionWantSender.turn_onChange n.bpm batch s.sws
  have hcalls := SessionWantSender.calls_onChange n.bpm batch s.sws
  set r := s.sws.onChange n.bpm batch with hr
  -- a want that comes to be tracked is one that a change adds
  have htr : ∀ w ∈ r.1.wants, n.Requested sid w := by
    intro w hw
    rcases added_of_trackedAfter ((ht.tracked w).mp hw).1 with hw | ⟨c, hc, hw⟩
    · exact hb.tracked w hw
    · exact (hin c hc).1 w hw
  have hnone : batch.flatMap Change.cancel = [] := by
    rw [List.flatMap_eq_nil_iff]
    exact fun c hc => (hin c hc).2
  refine ⟨htr, fun e he => ?_⟩
  obtain ⟨hsent, hc⟩ := hcalls e he
  refine ⟨fun w hw => htr w (hsent w hw), ?_⟩
  cases hce : SessionWantSender.cancelledBy e with
  | none => rfl
  | some ws =>
      obtain ⟨hne, hws⟩ := hc ws hce
      exact absurd (hws.trans hnone) hne

theorem Wf.insert_turn (h : n.Wf) {sid : SessionID} {s : Session}
    (hs : n.sessions.lookup sid = some s) (k : Nat) :
    ({ n with
      sessions := n.sessions.insert sid { s with
        sws := (s.sws.onChange n.bpm (s.changes.take k)).1
        changes := s.changes.drop k } } : Node).Wf := by
  have hb := h.books sid s hs
  refine h.insert ?_ h.sim
  exact { hb with
    tracked := (h.turn hs k).1
    changes := fun c hc => hb.changes c (List.mem_of_mem_drop hc) }

theorem Wf.onChange (h : n.Wf) (sid : SessionID) : (n.onChange sid).Wf := by
  rw [Node.onChange]
  split
  · exact h
  · rename_i s hs
    split
    · exact h
    · exact Wf.foldl_call _ (h.insert_turn hs changesBufferSize) (h.turn hs changesBufferSize).2

theorem Wf.removeSession (h : n.Wf) (sid : SessionID) (o : RangeOrder) :
    (n.removeSession sid o).Wf := by
  rw [Node.removeSession]
  split
  · exact h
  · split
    · refine { h with books := fun sid' s' hs' => ?_, sim := fun sid' w hf => ?_ }
      · exact h.books sid' s' (GoMap.lookup_erase_eq_some.mp hs').2
      · refine h.sim sid' w fun hn => hf ?_
        rw [SessionInterestManager.find_removeSession]
        split
        · rfl
        · exact hn
    · exact h

/-! ### Steps of requests -/

theorem requested_onRequest {i : Nat} {f : Request → Request} (hf : ∀ r : Request, r.Kin (f r)) :
    (n.onRequest i f).Requested = n.Requested := by
  funext sid w
  refine propext (exists_mem_modify fun r _ => ?_)
  rw [(hf r).session, (hf r).wants]

theorem Wf.onRequest (h : n.Wf) {i : Nat} {f : Request → Request} (hf : ∀ r : Request, r.Kin (f r))
    (hok : ∀ r, n.requests[i]? = some r → r.Ok → (f r).Ok) : (n.onRequest i f).Wf := by
  have hreq := requested_onRequest (n := n) (i := i) hf
  refine ⟨?_, ?_, ?_, ?_, h.cancels⟩
  · rw [hreq]; exact h.books
  · rw [hreq]; exact h.sim
  · rw [hreq]; exact h.receives
  · exact forall_mem_modify h.requests fun r hr =>
      hok r hr (h.requests r (List.mem_of_getElem? hr))

theorem Wf.getBlocks (h : n.Wf) (sid : SessionID) (wants : List Want) :
    ({ n with requests := n.requests ++ [.subscribe sid wants] } : Node).Wf := by
  have hmono : ∀ sid' w, n.Requested sid' w →
      ({ n with requests := n.requests ++ [.subscribe sid wants] } : Node).Requested sid' w :=
    fun sid' w ⟨r, hr, h⟩ => ⟨r, List.mem_append_left _ hr, h⟩
  refine ⟨fun sid' s hs => ?_, fun sid' w hf => hmono sid' w (h.sim sid' w hf), fun t ht => ?_,
    fun r hr => ?_, h.cancels⟩
  · exact (h.books sid' s hs).mono (hmono sid')
  · obtain ⟨hp, hw⟩ := h.receives t ht
    refine ⟨?_, hw⟩
    split at hp
    · exact fun w hw => hmono _ w (hp w hw)
    · exact fun w hw => hmono _ w (hp w hw)
    · trivial
  · rcases List.mem_append.mp hr with hr | hr
    · exact h.requests r hr
    · rw [List.mem_singleton.mp hr]
      exact Request.ok_subscribe sid wants

theorem Wf.want (h : n.Wf) (i : Nat) (skip : Bool) : (n.want i skip).Wf := by
  rcases n.want_cases i skip with he | ⟨r, hr, -, he | he⟩
  · rw [he]
    exact h
  · rw [he]
    exact h.onRequest (fun _ => ⟨rfl, rfl⟩) fun r _ hr => hr.start rfl
  · rw [he]
    refine Wf.onRequest ?_ (fun _ => ⟨rfl, rfl⟩) fun r _ hr => hr.start rfl
    exact h.onSession fun s _ hb => hb.enqueue fun w hw => ⟨r, List.mem_of_getElem? hr, rfl, hw⟩

theorem Wf.finish (h : n.Wf) (i : Nat) (lost skip : Bool) : (n.finish i lost skip).Wf := by
  have hclose : ∀ {m : Node} {r : Request}, n.requests[i]? = some r → r.started = true → m.Wf →
      m.requests = n.requests → (m.onRequest i (·.close lost)).Wf := by
    intro m r hr hst hm hreq
    refine hm.onRequest (fun _ => ⟨rfl, rfl⟩) fun r' hr' hok => hok.close lost ?_
    rw [hreq] at hr'
    exact Option.some.inj (hr.symm.trans hr') ▸ hst
  rcases n.finish_cases i lost skip with he | ⟨r, hr, hst, -, ⟨-, he⟩ | he⟩
  · rw [he]
    exact h
  · rw [he]
    exact hclose hr hst h rfl
  · rw [he]
    refine hclose hr hst (h.onSession fun s _ hb => hb.enqueue ⟨rfl, fun c hc => ?_⟩) rfl
    have hmem := List.mem_of_getElem? hr
    obtain ⟨w, hw, rfl⟩ := (h.requests r hmem).remaining c
      (Request.mem_remaining_of_left (AList.mem_keys.mpr hc))
    exact ⟨w, ⟨r, hmem, rfl, hw⟩, rfl⟩

/-! ### Steps of incoming blocks -/

theorem Wf.receiveBlocksFrom (h : n.Wf) (sender : PeerID) (blks : List (Block × Bytes))
    (haves dontHaves : List Want) : (n.receiveBlocksFrom sender blks haves dontHaves).Wf := by
  refine { h with receives := fun t ht => ?_ }
  rcases List.mem_append.mp ht with ht | ht
  · exact h.receives t ht
  · rw [List.mem_singleton.mp ht]
    refine ⟨trivial, fun b hb => ?_⟩
    have hb' : b ∈ blks.map fun b => AuthBlock.new b.1 b.2 := by
      revert hb
      dsimp only
      rw [published]
      split
      · exact id
      · intro hb
        rw [SessionInterestManager.splitWantedUnwanted, List.partition_eq_filter_filter] at hb
        exact (List.mem_filter.mp hb).1
    obtain ⟨e, -, rfl⟩ := List.mem_map.mp hb'
    exact ⟨rfl, List.mem_map.mpr ⟨_, hb', rfl⟩⟩

theorem Wf.moveTo (h : n.Wf) {i : Nat} {p : Place}
    (hp : ∀ t, n.receives[i]? = some t → ({ t with place := p } : Receive).Of n.Requested) :
    (n.moveTo i p).Wf :=
  { h with receives := forall_mem_modify h.receives hp }

/-- The place a call moves to has no keys in hand. -/
theorem Wf.moveTo_telling (h : n.Wf) (i : Nat) (ids : List SessionID) :
    (n.moveTo i (.telling ids)).Wf :=
  h.moveTo fun t ht => ⟨trivial, (h.receives t (List.mem_of_getElem? ht)).wanted⟩

theorem Wf.tell (h : n.Wf) (i : Nat) (t : Receive) : ∀ ids, (n.tell i t ids).Wf
  | [] => h.moveTo fun t ht => ⟨trivial, (h.receives t (List.mem_of_getElem? ht)).wanted⟩
  | sid :: ids => by
      rw [Node.tell]
      split
      · refine h.moveTo fun t ht =>
          ⟨fun w hw => ?_, (h.receives t (List.mem_of_getElem? ht)).wanted⟩
        exact h.sim sid w (SessionInterestManager.mem_filterSessionInterested.mp hw).2
      · exact h.moveTo_telling i ids

theorem Wf.update (h : n.Wf) {i : Nat} {t : Receive} {sid : SessionID}
    {ks haves dontHaves : List Want} {ids : List SessionID} (ht : n.receives[i]? = some t)
    (hp : t.place = .updating sid ks haves dontHaves ids) :
    (n.update i t sid ks haves dontHaves ids).Wf := by
  rcases n.update_cases i t sid ks haves dontHaves ids with he | ⟨-, he⟩ | ⟨s, -, he⟩
  · rw [he]
    exact h
  · rw [he]
    exact h.moveTo_telling i ids
  · rw [he]
    have h' : (n.onSession sid (·.addChange { update := ⟨t.sender, ks, haves, dontHaves⟩ })).Wf :=
      h.onSession fun s _ hb => hb.addChange ⟨by simp, rfl⟩
    split
    · exact h'.moveTo_telling i ids
    · refine h'.moveTo fun t' ht' => ?_
      obtain rfl := Option.some.inj (ht.symm.trans ht')
      have ho := h.receives t (List.mem_of_getElem? ht)
      have hplace := ho.place
      rw [hp] at hplace
      exact ⟨hplace, ho.wanted⟩

theorem Wf.receive (h : n.Wf) {i : Nat} {t : Receive} {sid : SessionID} {ks : List Want}
    {ids : List SessionID} {skip : Bool} (ht : n.receives[i]? = some t)
    (hp : t.place = .receiving sid ks ids) : (n.receive i sid ks ids skip).Wf := by
  have hplace : ∀ w ∈ ks, n.Requested sid w := by
    have hplace := (h.receives t (List.mem_of_getElem? ht)).place
    rw [hp] at hplace
    exact hplace
  rcases n.receive_cases i sid ks ids skip with he | ⟨-, he⟩ | ⟨s, -, he⟩
  · rw [he]
    exact h
  · rw [he]
    exact h.moveTo_telling i ids
  · rw [he]
    have h' : (n.onSession sid (·.enqueue { op := .opReceive, wants := ks })).Wf :=
      h.onSession fun s _ hb => hb.enqueue hplace
    exact h'.moveTo_telling i ids

theorem requested_publish (b : AuthBlock) (receives : List Receive) :
    ({ n with requests := n.requests.map (·.publish b), receives := receives } : Node).Requested =
      n.Requested := by
  funext sid w
  refine propext ?_
  have hkin : ∀ r : Request, (r.publish b).session = sid ∧ w ∈ (r.publish b).wants ↔
      r.session = sid ∧ w ∈ r.wants := fun r => by
    rw [(Request.kin_publish b r).session, (Request.kin_publish b r).wants]
  constructor
  · rintro ⟨_, hr, h⟩
    obtain ⟨r, hr', rfl⟩ := List.mem_map.mp hr
    exact ⟨r, hr', (hkin r).mp h⟩
  · rintro ⟨r, hr, h⟩
    exact ⟨r.publish b, List.mem_map.mpr ⟨r, hr, rfl⟩, (hkin r).mpr h⟩

theorem Wf.publish (h : n.Wf) {i : Nat} {t : Receive} (ht : n.receives[i]? = some t) :
    (n.publish i t).Wf := by
  rw [Node.publish]
  split
  · exact { h with receives := fun t' ht' => h.receives t' (List.mem_of_mem_eraseIdx ht') }
  · rename_i b wanted hw
    refine ⟨?_, ?_, ?_, ?_, h.cancels⟩
    · rw [requested_publish]; exact h.books
    · rw [requested_publish]; exact h.sim
    · rw [requested_publish]
      refine forall_mem_modify h.receives fun t' ht' => ?_
      obtain rfl := Option.some.inj (ht.symm.trans ht')
      have ho := h.receives t (List.mem_of_getElem? ht)
      exact ⟨ho.place, fun b' hb' => ho.wanted b' (hw ▸ List.mem_cons_of_mem b hb')⟩
    · intro r hr
      obtain ⟨r', hr', rfl⟩ := List.mem_map.mp hr
      exact (h.requests r' hr').publish b

theorem Wf.receiveStep (h : n.Wf) (i : Nat) (o : RangeOrder) (skip : Bool) :
    (n.receiveStep i o skip).Wf := by
  rw [Node.receiveStep]
  split
  · exact h
  · rename_i t ht
    split
    · have h' : ({ n with bpm := n.bpm.receiveFrom t.sender t.haves t.dontHaves } : Node).Wf :=
        ⟨h.books, h.sim, h.receives, h.requests, h.cancels⟩
      exact h'.moveTo fun t' ht' => ⟨trivial, (h.receives t' (List.mem_of_getElem? ht')).wanted⟩
    · exact h.moveTo_telling i _
    · exact h.tell i t _
    · rename_i hp
      exact h.update ht hp
    · rename_i hp
      exact h.receive ht hp
    · exact h.publish ht

theorem Wf.step (h : n.Wf) (a : Action) : (n.step a).Wf := by
  cases a with
  | newSession sid rng d d' =>
      rw [Node.step]
      split
      · exact h.insert (Session.books_new sid rng d d') h.sim
      · exact h
  | takeOp sid now => exact h.takeOp sid now
  | add sid => exact h.onSession fun s _ hb => hb.passAdd
  | sendFirst sid now => exact h.onSession fun s _ hb => hb.passFirst now
  | cancelWants sid => exact h.onSession fun s _ hb => hb.passCancel
  | enterOp sid i => exact h.onSession fun s _ hb => hb.enterOp i
  | onChange sid => exact h.onChange sid
  | signal sid p b => exact h.onSession fun s _ hb => hb.signalAvailability p b
  | enterChange sid i => exact h.onSession fun s _ hb => hb.enterChange i
  | provider sid i p => exact h.onSession fun s _ hb => hb.foundProvider i p
  | idleTick sid now => exact h.onSession fun s _ hb => hb.onIdleTick now
  | periodicSearch sid i d => exact h.onSession fun s _ hb => hb.same (s.same_onSearchTick i d)
  | setBaseTickDelay sid d => exact h.onSession fun s _ hb => hb.same (s.same_onBaseTickDelay d)
  | fireIdle sid | fireSearch sid =>
      exact h.onSession fun s _ hb => hb.same ⟨⟨rfl, rfl, rfl, rfl, rfl, rfl, rfl⟩, rfl, rfl⟩
  | shutdown sid => exact h.onSession fun s _ hb => { hb with }
  | removeSession sid o => exact h.removeSession sid o
  | getBlocks sid wants =>
      rw [Node.step]
      split
      · exact h
      · exact h.getBlocks sid wants
  | want i skip => exact h.want i skip
  | cancel i =>
      exact h.onRequest (fun _ => ⟨rfl, rfl⟩) fun r _ hr =>
        ⟨hr.keys, hr.remaining, hr.got, hr.started, hr.listening⟩
  | unsubscribe i =>
      refine h.onRequest (fun r => ?_) fun r _ hr => ?_
      · split <;> exact ⟨rfl, rfl⟩
      · split
        · exact ⟨hr.keys, hr.remaining, hr.got, hr.started, fun h => absurd h (by simp)⟩
        · exact hr
  | deliver i =>
      refine h.onRequest (fun r => ?_) fun r _ hr => ?_
      · split
        · exact Request.kin_deliver r
        · exact ⟨rfl, rfl⟩
      · split
        · exact hr.deliver
        · exact hr
  | finish i lost skip => exact h.finish i lost skip
  | receiveBlocksFrom sender blks haves dontHaves =>
      exact h.receiveBlocksFrom sender blks haves dontHaves
  | receiveStep i o skip => exact h.receiveStep i o skip

theorem wf_run (as : List Action) : (run step start as).Wf :=
  run_invariant (fun _ a h => h.step a) as wf_start

end Node

end BitswapAuth
