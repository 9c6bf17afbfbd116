/-
# `BitswapAuth.MessageQueue.Timeout` — simulated DONT_HAVEs, when they are due

`dontHaveTimeoutMgr` of the package `messagequeue`.  A want-block that a peer does
not answer in time is reported as if the peer had said DONT_HAVE.  The wants that
are waited for stand in a queue in the order they were sent, and in a map from the
want to its place there:

    activeWants   (c, a) ↦ 3, (d, a) ↦ 5
    wantQueue     2 (b, a) cancelled   3 (c, a) active   5 (d, a) active

A want that is cancelled is taken out of the map at once, and stays in the queue
until the check for timeouts comes to it.  The check takes wants from the front as
long as they are cancelled or due, and sets a timer for the first that is neither.

The entries of the queue are shared with the map by pointer: an entry has an address
here, and that is what the map has.  Each locked section happens at one moment of
the clock, which never goes back; between two sections it may go on by any time.
`AddPending` reads the clock before it takes the lock, so that it is two steps with
anything in between but another `AddPending`: all its calls come from the run loop
of the message queue.  A `time.Duration` is an integer.

`Consistent`: the map and the queue agree, and the queue is in order.  `exact_of_consistent`:
a check then reports what is due, no more, and each want once.
-/
import BitswapAuth.Auth
import BitswapAuth.Lib.Run
import BitswapAuth.Lib.Timer

namespace BitswapAuth

open Lib

/-- `pendingWant`, with its address. -/
structure PendingWant where
  addr : Nat
  c : Want
  active : Bool
  sent : Time
  deriving DecidableEq

/-- `latencyEwma` with its `alpha` of one half. -/
structure LatencyEwma where
  samples : Nat
  latency : Int
  deriving DecidableEq

/-- `latencyEwma.update`.  The weight of a sample is one for the first, and one half from
then on; the source computes in floating point, where halves of durations are exact. -/
def LatencyEwma.update (le : LatencyEwma) (elapsed : Int) : LatencyEwma :=
  let samples := le.samples + 1
  ⟨samples, if samples = 1 then elapsed else (elapsed + le.latency).tdiv 2⟩

/-- The parameters of `newDontHaveTimeoutMgrWithParams`. -/
structure TimeoutParams where
  defaultTimeout : Int
  maxTimeout : Int
  pingLatencyMultiplier : Int
  messageLatencyMultiplier : Int
  maxExpectedWantProcessTime : Int
  deriving DecidableEq

/-- The parameters of `newDontHaveTimeoutMgr`. -/
def TimeoutParams.default : TimeoutParams :=
  ⟨5000 * millisecond, 7000 * millisecond, 3, 2, 2000 * millisecond⟩

/-- `dontHaveTimeoutMgr`. -/
structure DontHaveTimeoutMgr where
  params : TimeoutParams
  ctxDone : Bool
  started : Bool
  activeWants : GoMap Want Nat
  wantQueue : List PendingWant
  timeout : Int
  messageLatency : LatencyEwma
  /-- The timer, set for a moment. -/
  checkForTimeoutsTimer : Option (Timer Int)
  nextAddr : Nat

namespace PendingWant

/-- The time since the want was sent has reached the timeout. -/
def Due (pw : PendingWant) (timeout : Int) (now : Time) : Prop :=
  timeout ≤ (now : Int) - pw.sent

instance (pw : PendingWant) (timeout : Int) (now : Time) : Decidable (pw.Due timeout now) :=
  inferInstanceAs (Decidable (_ ≤ _))

/-- `pw.active = false`, written through the pointer `a`. -/
def deactivate (a : Nat) (pw : PendingWant) : PendingWant :=
  if pw.addr = a then { pw with active := false } else pw

@[simp]
theorem addr_deactivate (a : Nat) (pw : PendingWant) : (pw.deactivate a).addr = pw.addr := by
  rw [deactivate]; split <;> rfl

@[simp]
theorem c_deactivate (a : Nat) (pw : PendingWant) : (pw.deactivate a).c = pw.c := by
  rw [deactivate]; split <;> rfl

@[simp]
theorem sent_deactivate (a : Nat) (pw : PendingWant) : (pw.deactivate a).sent = pw.sent := by
  rw [deactivate]; split <;> rfl

@[simp]
theorem active_deactivate (a : Nat) (pw : PendingWant) :
    (pw.deactivate a).active = true ↔ pw.active = true ∧ pw.addr ≠ a := by
  rw [deactivate]; split <;> simp [*]

end PendingWant

namespace DontHaveTimeoutMgr

/-- `newDontHaveTimeoutMgrWithParams`. -/
def new (p : TimeoutParams) : DontHaveTimeoutMgr :=
  ⟨p, false, false, ∅, [], p.defaultTimeout, ⟨0, 0⟩, none, 0⟩

/-- `calculateTimeoutFromPingLatency`. -/
def calculateTimeoutFromPingLatency (m : DontHaveTimeoutMgr) (latency : Int) : Int :=
  min (m.params.maxExpectedWantProcessTime + m.params.pingLatencyMultiplier * latency)
    m.params.maxTimeout

/-- `calculateTimeoutFromMessageLatency`. -/
def calculateTimeoutFromMessageLatency (m : DontHaveTimeoutMgr) : Int :=
  min (m.messageLatency.latency * m.params.messageLatencyMultiplier) m.params.maxTimeout

/-- The loop of `checkForTimeouts`: what is left of the map and the queue, and the wants
that have expired. -/
def expire (timeout : Int) (now : Time) :
    GoMap Want Nat → List PendingWant → GoMap Want Nat × List PendingWant × List Want
  | active, [] => (active, [], [])
  | active, pw :: queue =>
      if pw.active then
        -- the queue is in order, so that nothing behind has expired either
        if (now : Int) - pw.sent < timeout then (active, pw :: queue, [])
        else
          let r := expire timeout now (active.erase pw.c) queue
          (r.1, r.2.1, pw.c :: r.2.2)
      else expire timeout now active queue

/-- The timer is set, and made if there is none. -/
def arm (t : Option (Timer Int)) (deadline : Int) : Timer Int :=
  match t with
  | none => .new deadline
  -- a value that is in the channel is not taken out
  | some t => t.stop.1.reset deadline

/-- `checkForTimeouts`, with the wants that it reports. -/
def checkForTimeouts (m : DontHaveTimeoutMgr) (now : Time) : DontHaveTimeoutMgr × List Want :=
  if m.wantQueue.isEmpty then (m, [])
  else
    let r := expire m.timeout now m.activeWants m.wantQueue
    let m := { m with activeWants := r.1, wantQueue := r.2.1 }
    match m.wantQueue with
    | [] => (m, r.2.2)
    | oldest :: _ =>
        if m.ctxDone then (m, r.2.2)
        else
          let until' : Int := oldest.sent + m.timeout - now
          ({ m with
              checkForTimeoutsTimer := some (arm m.checkForTimeoutsTimer (now + until')) },
            r.2.2)

/-- One round of `AddPending`. -/
def addWant (start : Time) (m : DontHaveTimeoutMgr) (c : Want) : DontHaveTimeoutMgr :=
  if c ∈ m.activeWants then m
  else
    { m with
      activeWants := m.activeWants.insert c m.nextAddr
      wantQueue := m.wantQueue ++ [⟨m.nextAddr, c, true, start⟩]
      nextAddr := m.nextAddr + 1 }

/-- One round of `CancelPending`. -/
def cancelWant (m : DontHaveTimeoutMgr) (c : Want) : DontHaveTimeoutMgr :=
  match m.activeWants.lookup c with
  | none => m
  | some a =>
      { m with
        activeWants := m.activeWants.erase c
        wantQueue := m.wantQueue.map (PendingWant.deactivate a) }

/-! The locked sections of the methods.  Where one may end with `checkForTimeouts` it says
whether it does, and the check is made on the manager it leaves. -/

/-- `AddPending` for at least one want, once it has the lock. -/
def addPending (m : DontHaveTimeoutMgr) (ks : List Want) (start : Time) :
    DontHaveTimeoutMgr × Bool :=
  (ks.foldl (addWant start) m, decide (m.activeWants.len = 0))

/-- `CancelPending`. -/
def cancelPending (m : DontHaveTimeoutMgr) (ks : List Want) : DontHaveTimeoutMgr :=
  ks.foldl cancelWant m

/-- `Start`, with the latency of the connection, and whether it goes on to ping the peer. -/
def start (m : DontHaveTimeoutMgr) (latency : Int) : DontHaveTimeoutMgr × Bool :=
  if m.started then (m, false)
  else if 0 < latency then
    ({ m with started := true, timeout := m.calculateTimeoutFromPingLatency latency }, false)
  else ({ m with started := true }, true)

/-- `UpdateMessageLatency`. -/
def updateMessageLatency (m : DontHaveTimeoutMgr) (elapsed : Int) :
    DontHaveTimeoutMgr × Bool :=
  let m' := { m with messageLatency := m.messageLatency.update elapsed }
  let timeout := m'.calculateTimeoutFromMessageLatency
  ({ m' with timeout := timeout }, decide (timeout < m.timeout))

/-- `measurePingLatency`, when the ping has gone well. -/
def measurePingLatency (m : DontHaveTimeoutMgr) (latency : Int) :
    DontHaveTimeoutMgr × Bool :=
  if 0 < m.messageLatency.samples then (m, false)
  else ({ m with timeout := m.calculateTimeoutFromPingLatency latency }, true)

/-- The timer goes off if its time has come. -/
def fireTimer (m : DontHaveTimeoutMgr) (now : Time) : DontHaveTimeoutMgr :=
  { m with checkForTimeoutsTimer := m.checkForTimeoutsTimer.map (·.elapse now) }

/-- `Shutdown` under the lock. -/
def stopTimer (m : DontHaveTimeoutMgr) : DontHaveTimeoutMgr :=
  { m with checkForTimeoutsTimer := m.checkForTimeoutsTimer.map (·.stop.1) }

/-! ## What the map and the queue say to each other -/

/-- The want is waited for since that moment. -/
def Waits (m : DontHaveTimeoutMgr) (w : Want) (t : Time) : Prop :=
  ∃ pw ∈ m.wantQueue, pw.active = true ∧ pw.c = w ∧ pw.sent = t

/-- The map has each active want with the address of the active entry of the queue that
holds it, no two entries have one address, and the queue is in the order of sending. -/
structure Consistent (m : DontHaveTimeoutMgr) : Prop where
  index : ∀ w a, m.activeWants.lookup w = some a ↔
    ∃ pw ∈ m.wantQueue, pw.active = true ∧ pw.c = w ∧ pw.addr = a
  distinct : (m.wantQueue.map (·.addr)).Nodup
  fresh : ∀ pw ∈ m.wantQueue, pw.addr < m.nextAddr
  ordered : m.wantQueue.Pairwise fun pw pw' => pw.sent ≤ pw'.sent

/-- Nothing in the queue was sent after that moment. -/
def SentBy (m : DontHaveTimeoutMgr) (t : Time) : Prop := ∀ pw ∈ m.wantQueue, pw.sent ≤ t

section

variable {m : DontHaveTimeoutMgr}

theorem consistent_new (p : TimeoutParams) : (new p).Consistent where
  index w a := by simp [new]
  distinct := List.nodup_nil
  fresh pw h := absurd h List.not_mem_nil
  ordered := List.Pairwise.nil

/-- The wants are as they were. -/
structure SameWants (m m' : DontHaveTimeoutMgr) : Prop where
  activeWants : m'.activeWants = m.activeWants
  wantQueue : m'.wantQueue = m.wantQueue
  nextAddr : m'.nextAddr = m.nextAddr

theorem SameWants.consistent {m' : DontHaveTimeoutMgr} (hs : SameWants m m') (h : m.Consistent) :
    m'.Consistent where
  index := by rw [hs.activeWants, hs.wantQueue]; exact h.index
  distinct := by rw [hs.wantQueue]; exact h.distinct
  fresh := by rw [hs.wantQueue, hs.nextAddr]; exact h.fresh
  ordered := by rw [hs.wantQueue]; exact h.ordered

theorem SameWants.sentBy {m' : DontHaveTimeoutMgr} (hs : SameWants m m') {t : Time}
    (h : m.SentBy t) : m'.SentBy t := by
  rw [SentBy, hs.wantQueue]
  exact h

/-- Everything but the wants is as it was. -/
structure SameClock (m m' : DontHaveTimeoutMgr) : Prop where
  timeout : m'.timeout = m.timeout
  timer : m'.checkForTimeoutsTimer = m.checkForTimeoutsTimer
  ctxDone : m'.ctxDone = m.ctxDone
  started : m'.started = m.started

theorem sameWants_start (latency : Int) : SameWants m (m.start latency).1 := by
  rw [start]
  split
  · exact ⟨rfl, rfl, rfl⟩
  · split <;> exact ⟨rfl, rfl, rfl⟩

theorem sameWants_updateMessageLatency (elapsed : Int) :
    SameWants m (m.updateMessageLatency elapsed).1 :=
  ⟨rfl, rfl, rfl⟩

theorem sameWants_measurePingLatency (latency : Int) :
    SameWants m (m.measurePingLatency latency).1 := by
  rw [measurePingLatency]
  split <;> exact ⟨rfl, rfl, rfl⟩

/-- There is one active entry for a want. -/
theorem Consistent.eq_of_active (h : m.Consistent) {pw pw' : PendingWant}
    (hpw : pw ∈ m.wantQueue) (hpw' : pw' ∈ m.wantQueue) (ha : pw.active = true)
    (ha' : pw'.active = true) (hc : pw.c = pw'.c) : pw = pw' := by
  have h₁ : m.activeWants.lookup pw.c = some pw.addr := (h.index _ _).mpr ⟨pw, hpw, ha, rfl, rfl⟩
  have h₂ : m.activeWants.lookup pw.c = some pw'.addr :=
    (h.index _ _).mpr ⟨pw', hpw', ha', hc.symm, rfl⟩
  have haddr : pw.addr = pw'.addr := Option.some.inj (h₁.symm.trans h₂)
  exact List.inj_on_of_nodup_map h.distinct hpw hpw' haddr

/-- The wants of the map are the ones waited for. -/
theorem Consistent.mem_activeWants (h : m.Consistent) {w : Want} :
    w ∈ m.activeWants ↔ ∃ t, m.Waits w t := by
  rw [GoMap.mem_iff_lookup]
  constructor
  · rintro ⟨a, ha⟩
    obtain ⟨pw, hpw, hact, hc, -⟩ := (h.index w a).mp ha
    exact ⟨pw.sent, pw, hpw, hact, hc, rfl⟩
  · rintro ⟨t, pw, hpw, hact, hc, -⟩
    exact ⟨pw.addr, (h.index w _).mpr ⟨pw, hpw, hact, hc, rfl⟩⟩

/-! ## One round of `AddPending` and of `CancelPending` -/

theorem waits_addWant {start : Time} {c w : Want} {t : Time}
    (h : (m.addWant start c).Waits w t) : m.Waits w t ∨ t = start := by
  rw [addWant] at h
  split at h
  · exact .inl h
  · obtain ⟨pw, hpw, hact, hw, ht⟩ := h
    rcases List.mem_append.mp hpw with hpw | hpw
    · exact .inl ⟨pw, hpw, hact, hw, ht⟩
    · obtain rfl := List.mem_singleton.mp hpw
      exact .inr ht.symm

theorem mem_activeWants_addWant {start : Time} {c w : Want} :
    w ∈ (m.addWant start c).activeWants ↔ w ∈ m.activeWants ∨ w = c := by
  rw [addWant]
  split
  · case isTrue hc =>
      constructor
      · exact .inl
      · rintro (h | rfl)
        · exact h
        · exact hc
  · show w ∈ m.activeWants.insert c m.nextAddr ↔ _
    rw [AList.mem_insert, or_comm]

/-- A want that is added goes to the end, which keeps the order when the time it was sent
is not before that of the others. -/
theorem consistent_addWant (h : m.Consistent) {start : Time} (hs : m.SentBy start) (c : Want) :
    (m.addWant start c).Consistent ∧ (m.addWant start c).SentBy start := by
  rw [addWant]
  split
  · exact ⟨h, hs⟩
  · case isFalse hc =>
      have hnone : m.activeWants.lookup c = none := AList.lookup_eq_none.mpr hc
      refine ⟨⟨fun w a => ?_, ?_, ?_, ?_⟩, ?_⟩
      · show AList.lookup w (m.activeWants.insert c m.nextAddr) = some a ↔ _
        rw [GoMap.lookup_insert_ite]
        simp only [List.mem_append, List.mem_singleton, or_and_right, exists_or, exists_eq_left,
          true_and]
        split
        · case isTrue hw =>
            subst hw
            have hno : ¬ ∃ pw ∈ m.wantQueue, pw.active = true ∧ pw.c = w ∧ pw.addr = a := by
              rw [← h.index, hnone]
              simp
            simp only [hno, false_or, true_and, Option.some.injEq]
        · case isFalse hw =>
            rw [h.index]
            simp [Ne.symm hw]
      · show (List.map _ (m.wantQueue ++ [_])).Nodup
        rw [List.map_append, List.nodup_append]
        refine ⟨h.distinct, by simp, ?_⟩
        intro a ha b hb
        obtain ⟨pw, hpw, rfl⟩ := List.mem_map.mp ha
        obtain rfl : b = m.nextAddr := by simpa using hb
        exact Nat.ne_of_lt (h.fresh pw hpw)
      · intro pw hpw
        rcases List.mem_append.mp hpw with hpw | hpw
        · exact Nat.lt_succ_of_lt (h.fresh pw hpw)
        · obtain rfl := List.mem_singleton.mp hpw
          exact Nat.lt_succ_self _
      · refine List.pairwise_append.mpr ⟨h.ordered, List.pairwise_singleton _ _, ?_⟩
        intro pw hpw pw' hpw'
        obtain rfl := List.mem_singleton.mp hpw'
        exact hs pw hpw
      · intro pw hpw
        rcases List.mem_append.mp hpw with hpw | hpw
        · exact hs pw hpw
        · obtain rfl := List.mem_singleton.mp hpw
          exact Nat.le_refl _

theorem consistent_addPending (h : m.Consistent) {start : Time} (hs : m.SentBy start)
    (ks : List Want) :
    (m.addPending ks start).1.Consistent ∧ (m.addPending ks start).1.SentBy start := by
  have hround : ∀ (m : DontHaveTimeoutMgr) c, m.Consistent ∧ m.SentBy start →
      (m.addWant start c).Consistent ∧ (m.addWant start c).SentBy start :=
    fun m c hm => consistent_addWant hm.1 hm.2 c
  exact run_invariant hround ks ⟨h, hs⟩

theorem sameClock_addPending (ks : List Want) (start : Time) :
    SameClock m (m.addPending ks start).1 := by
  have hround : ∀ (m' : DontHaveTimeoutMgr) c, SameClock m m' →
      SameClock m (m'.addWant start c) := by
    intro m' c h
    rw [addWant]
    split
    · exact h
    · exact ⟨h.timeout, h.timer, h.ctxDone, h.started⟩
  exact run_invariant hround ks ⟨rfl, rfl, rfl, rfl⟩

theorem waits_addPending {ks : List Want} {start : Time} {w : Want} {t : Time}
    (h : (m.addPending ks start).1.Waits w t) : m.Waits w t ∨ t = start := by
  rw [or_iff_not_imp_right]
  intro ht
  have hround : ∀ (m : DontHaveTimeoutMgr) c, (m.addWant start c).Waits w t → m.Waits w t :=
    fun m c hm => (waits_addWant hm).resolve_right ht
  exact foldl_reflect (P := fun m : DontHaveTimeoutMgr => m.Waits w t) hround ks h

theorem mem_activeWants_addPending (ks : List Want) (start : Time) (w : Want) :
    w ∈ (m.addPending ks start).1.activeWants ↔ w ∈ m.activeWants ∨ w ∈ ks := by
  show w ∈ (ks.foldl (addWant start) m).activeWants ↔ _
  induction ks generalizing m with
  | nil => simp
  | cons c ks ih =>
      rw [List.foldl_cons, ih, mem_activeWants_addWant, List.mem_cons, or_assoc]

theorem waits_cancelWant {c w : Want} {t : Time} (h : (m.cancelWant c).Waits w t) :
    m.Waits w t := by
  rw [cancelWant] at h
  split at h
  · exact h
  · obtain ⟨pw, hpw, hact, hw, ht⟩ := h
    obtain ⟨pw', hpw', rfl⟩ := List.mem_map.mp hpw
    rw [PendingWant.active_deactivate] at hact
    rw [PendingWant.c_deactivate] at hw
    rw [PendingWant.sent_deactivate] at ht
    exact ⟨pw', hpw', hact.1, hw, ht⟩

theorem mem_activeWants_cancelWant {c w : Want} :
    w ∈ (m.cancelWant c).activeWants ↔ w ∈ m.activeWants ∧ w ≠ c := by
  rw [cancelWant]
  split
  · case h_1 hnone =>
      have hc : c ∉ m.activeWants := AList.lookup_eq_none.mp hnone
      constructor
      · intro hw
        exact ⟨hw, fun he => hc (he ▸ hw)⟩
      · exact And.left
  · show w ∈ m.activeWants.erase c ↔ _
    rw [AList.mem_erase, and_comm]

/-- A want that is cancelled leaves the map, and its entry stays in the queue. -/
theorem consistent_cancelWant (h : m.Consistent) (c : Want) : (m.cancelWant c).Consistent := by
  rw [cancelWant]
  split
  · exact h
  · case h_2 a hlook =>
      obtain ⟨pw₀, hpw₀, hact₀, hc₀, ha₀⟩ := (h.index c a).mp hlook
      refine ⟨fun w b => ?_, ?_, ?_, ?_⟩
      · show AList.lookup w (m.activeWants.erase c) = some b ↔ _
        rw [GoMap.lookup_erase_ite]
        simp only [List.mem_map, exists_exists_and_eq_and, PendingWant.active_deactivate,
          PendingWant.c_deactivate, PendingWant.addr_deactivate]
        split
        · case isTrue hw =>
            -- an entry for `c` that is still active has the address that was cancelled
            subst hw
            refine ⟨fun hn => absurd hn (by simp), ?_⟩
            rintro ⟨pw, hpw, ⟨hact, hna⟩, hc, -⟩
            exact absurd (h.eq_of_active hpw hpw₀ hact hact₀ (hc.trans hc₀.symm) ▸ ha₀) hna
        · case isFalse hw =>
            rw [h.index]
            constructor
            · rintro ⟨pw, hpw, hact, hc, hb⟩
              refine ⟨pw, hpw, ⟨hact, fun he => hw ?_⟩, hc, hb⟩
              have heq := List.inj_on_of_nodup_map h.distinct hpw hpw₀ (he.trans ha₀.symm)
              rw [← hc, heq, hc₀]
            · rintro ⟨pw, hpw, ⟨hact, -⟩, hc, hb⟩
              exact ⟨pw, hpw, hact, hc, hb⟩
      · show (List.map _ (List.map _ _)).Nodup
        rw [List.map_map]
        exact (List.map_congr_left fun pw _ => PendingWant.addr_deactivate a pw) ▸ h.distinct
      · intro pw hpw
        obtain ⟨pw', hpw', rfl⟩ := List.mem_map.mp hpw
        rw [PendingWant.addr_deactivate]
        exact h.fresh pw' hpw'
      · refine List.pairwise_map.mpr (h.ordered.imp fun {pw pw'} hle => ?_)
        rw [PendingWant.sent_deactivate, PendingWant.sent_deactivate]
        exact hle

theorem sentBy_cancelWant {t : Time} (h : m.SentBy t) (c : Want) : (m.cancelWant c).SentBy t := by
  rw [cancelWant]
  split
  · exact h
  · intro pw hpw
    obtain ⟨pw', hpw', rfl⟩ := List.mem_map.mp hpw
    rw [PendingWant.sent_deactivate]
    exact h pw' hpw'

theorem consistent_cancelPending (h : m.Consistent) (ks : List Want) :
    (m.cancelPending ks).Consistent := by
  have hround : ∀ (m : DontHaveTimeoutMgr) c, m.Consistent → (m.cancelWant c).Consistent :=
    fun m c hm => consistent_cancelWant hm c
  exact run_invariant hround ks h

theorem sentBy_cancelPending {t : Time} (h : m.SentBy t) (ks : List Want) :
    (m.cancelPending ks).SentBy t := by
  have hround : ∀ (m : DontHaveTimeoutMgr) c, m.SentBy t → (m.cancelWant c).SentBy t :=
    fun m c hm => sentBy_cancelWant hm c
  exact run_invariant (I := fun m : DontHaveTimeoutMgr => m.SentBy t) hround ks h

theorem sameClock_cancelPending (ks : List Want) : SameClock m (m.cancelPending ks) := by
  have hround : ∀ (m' : DontHaveTimeoutMgr) c, SameClock m m' → SameClock m (m'.cancelWant c) := by
    intro m' c h
    rw [cancelWant]
    split
    · exact h
    · exact ⟨h.timeout, h.timer, h.ctxDone, h.started⟩
  exact run_invariant hround ks ⟨rfl, rfl, rfl, rfl⟩

theorem waits_cancelPending {ks : List Want} {w : Want} {t : Time}
    (h : (m.cancelPending ks).Waits w t) : m.Waits w t :=
  foldl_reflect (P := fun m : DontHaveTimeoutMgr => m.Waits w t)
    (fun _ _ => waits_cancelWant) ks h

theorem mem_activeWants_cancelPending (ks : List Want) (w : Want) :
    w ∈ (m.cancelPending ks).activeWants ↔ w ∈ m.activeWants ∧ w ∉ ks := by
  rw [cancelPending]
  induction ks generalizing m with
  | nil => simp
  | cons c ks ih =>
      rw [List.foldl_cons, ih, mem_activeWants_cancelWant, List.mem_cons, not_or, and_assoc]

/-! ## The check -/

/-- What the loop has gone through and what it leaves. -/
theorem expire_spec (timeout : Int) (now : Time) :
    ∀ (active : GoMap Want Nat) (queue : List PendingWant), ∃ gone,
      queue = gone ++ (expire timeout now active queue).2.1 ∧
      (∀ pw ∈ gone, pw.active = true → pw.Due timeout now) ∧
      (∀ pw ∈ (expire timeout now active queue).2.1.head?,
        pw.active = true ∧ ¬ pw.Due timeout now) ∧
      (expire timeout now active queue).2.2 = (gone.filter (·.active)).map (·.c) ∧
      ∀ w, (expire timeout now active queue).1.lookup w =
        if w ∈ (expire timeout now active queue).2.2 then none else active.lookup w
  | active, [] => ⟨[], by simp [expire]⟩
  | active, pw :: queue => by
      rw [expire]
      split
      · case isTrue hact =>
          split
          · case isTrue hlt =>
              have hnot : ¬ pw.Due timeout now := Int.not_le.mpr hlt
              exact ⟨[], by simp [hact, hnot]⟩
          · case isFalse hge =>
              have hdue : pw.Due timeout now := Int.not_lt.mp hge
              obtain ⟨gone, hq, hgone, hhead, hexp, hlook⟩ :=
                expire_spec timeout now (active.erase pw.c) queue
              refine ⟨pw :: gone, by rw [List.cons_append, ← hq], ?_, hhead, ?_, fun w => ?_⟩
              · intro pw' hpw'
                rcases List.mem_cons.mp hpw' with rfl | hpw'
                · exact fun _ => hdue
                · exact hgone pw' hpw'
              · rw [List.filter_cons_of_pos hact, List.map_cons, ← hexp]
              · show AList.lookup w (expire timeout now (active.erase pw.c) queue).1 = _
                rw [hlook, GoMap.lookup_erase_ite]
                simp only [List.mem_cons]
                split
                · case isTrue hw => simp [hw]
                · case isFalse hw => simp [hw]
      · case isFalse hact =>
          obtain ⟨gone, hq, hgone, hhead, hexp, hlook⟩ := expire_spec timeout now active queue
          refine ⟨pw :: gone, by rw [List.cons_append, ← hq], ?_, hhead, ?_, hlook⟩
          · intro pw' hpw' hact'
            rcases List.mem_cons.mp hpw' with rfl | hpw'
            · exact absurd hact' hact
            · exact hgone pw' hpw' hact'
          · rw [List.filter_cons_of_neg hact, hexp]

/-- The timer after the check, if that leaves such a queue. -/
def timerFor (m : DontHaveTimeoutMgr) : List PendingWant → Option (Timer Int)
  | [] => m.checkForTimeoutsTimer
  | oldest :: _ =>
      if m.ctxDone then m.checkForTimeoutsTimer
      else some (arm m.checkForTimeoutsTimer (oldest.sent + m.timeout))

theorem checkForTimeouts_eq (m : DontHaveTimeoutMgr) (now : Time) :
    m.checkForTimeouts now =
      ({ m with
          activeWants := (expire m.timeout now m.activeWants m.wantQueue).1
          wantQueue := (expire m.timeout now m.activeWants m.wantQueue).2.1
          checkForTimeoutsTimer :=
            m.timerFor (expire m.timeout now m.activeWants m.wantQueue).2.1 },
        (expire m.timeout now m.activeWants m.wantQueue).2.2) := by
  rw [checkForTimeouts]
  split
  · case isTrue hempty =>
      have hq : m.wantQueue = [] := List.isEmpty_iff.mp hempty
      cases m
      cases hq
      rfl
  · simp only [timerFor]
    split
    · rfl
    · case h_2 oldest _ _ =>
        split
        · rfl
        · have hwait : (now : Int) + (oldest.sent + m.timeout - now) = oldest.sent + m.timeout := by
            omega
          rw [hwait]

end

end DontHaveTimeoutMgr

/-- A call of `checkForTimeouts`: the manager it finds, and when. -/
structure Check where
  before : DontHaveTimeoutMgr
  now : Time

namespace Check

/-- The manager the check leaves. -/
def after (k : Check) : DontHaveTimeoutMgr := (k.before.checkForTimeouts k.now).1

/-- The wants the check reports. -/
def expired (k : Check) : List Want := (k.before.checkForTimeouts k.now).2

/-- The check is exact. -/
structure Exact (k : Check) : Prop where
  /-- It reports the wants that have been waited for as long as the timeout. -/
  reported : ∀ w, w ∈ k.expired ↔ ∃ t, k.before.Waits w t ∧ k.before.timeout ≤ (k.now : Int) - t
  once : k.expired.Nodup
  /-- The entries that go are from the front, and are cancelled or due. -/
  removed : ∃ gone, k.before.wantQueue = gone ++ k.after.wantQueue ∧
    ∀ pw ∈ gone, pw.active = true → pw.Due k.before.timeout k.now
  /-- The first entry that stays is neither, and none behind it is due. -/
  head : ∀ pw ∈ k.after.wantQueue.head?, pw.active = true
  kept : ∀ pw ∈ k.after.wantQueue, ¬ pw.Due k.before.timeout k.now
  index : ∀ w, k.after.activeWants.lookup w =
    if w ∈ k.expired then none else k.before.activeWants.lookup w

variable {k : Check}

theorem spec (k : Check) : ∃ gone,
    k.before.wantQueue = gone ++ k.after.wantQueue ∧
    (∀ pw ∈ gone, pw.active = true → pw.Due k.before.timeout k.now) ∧
    (∀ pw ∈ k.after.wantQueue.head?,
      pw.active = true ∧ ¬ pw.Due k.before.timeout k.now) ∧
    k.expired = (gone.filter (·.active)).map (·.c) ∧
    ∀ w, k.after.activeWants.lookup w =
      if w ∈ k.expired then none else k.before.activeWants.lookup w := by
  rw [after, expired, DontHaveTimeoutMgr.checkForTimeouts_eq]
  exact DontHaveTimeoutMgr.expire_spec _ _ _ _

/-- **A check is exact** when the map and the queue agree. -/
theorem exact_of_consistent (h : k.before.Consistent) : k.Exact := by
  obtain ⟨gone, hq, hgone, hhead, hexp, hlook⟩ := k.spec
  have hord := h.ordered
  rw [hq] at hord
  have hkept : ∀ pw ∈ k.after.wantQueue, ¬ pw.Due k.before.timeout k.now := by
    -- the queue is in order, so that nothing behind the head has waited longer than it
    intro pw hpw hdue
    have hord' := (List.pairwise_append.mp hord).2.1
    cases hrest : k.after.wantQueue with
    | nil => simp [hrest] at hpw
    | cons oldest rest =>
        rw [hrest] at hhead hpw hord'
        have hold := (hhead oldest rfl).2
        rcases List.mem_cons.mp hpw with rfl | hpw
        · exact hold hdue
        · have hle : oldest.sent ≤ pw.sent := (List.pairwise_cons.mp hord').1 pw hpw
          have h₁ : k.before.timeout ≤ (k.now : Int) - pw.sent := hdue
          have h₂ : ¬ k.before.timeout ≤ (k.now : Int) - oldest.sent := hold
          have h₃ : (oldest.sent : Int) ≤ pw.sent := Int.ofNat_le.mpr hle
          omega
  have hgone_mem : ∀ pw ∈ gone, pw ∈ k.before.wantQueue := fun pw hpw =>
    hq ▸ List.mem_append_left _ hpw
  refine ⟨fun w => ?_, ?_, ⟨gone, hq, hgone⟩, fun pw hpw => (hhead pw hpw).1, hkept, hlook⟩
  · rw [hexp]
    constructor
    · intro hw
      obtain ⟨pw, hpw, rfl⟩ := List.mem_map.mp hw
      obtain ⟨hpw, hact⟩ := List.mem_filter.mp hpw
      exact ⟨pw.sent, ⟨pw, hgone_mem pw hpw, hact, rfl, rfl⟩, hgone pw hpw hact⟩
    · rintro ⟨t, ⟨pw, hpw, hact, rfl, rfl⟩, hdue⟩
      rw [hq] at hpw
      rcases List.mem_append.mp hpw with hpw | hpw
      · exact List.mem_map.mpr ⟨pw, List.mem_filter.mpr ⟨hpw, hact⟩, rfl⟩
      · exact absurd hdue (hkept pw hpw)
  · rw [hexp]
    have hnd : gone.Nodup := by
      have := h.distinct.of_map
      rw [hq] at this
      exact (List.nodup_append.mp this).1
    refine List.Nodup.map_on ?_ (hnd.filter _)
    intro pw hpw pw' hpw' hc
    obtain ⟨hpw, hact⟩ := List.mem_filter.mp hpw
    obtain ⟨hpw', hact'⟩ := List.mem_filter.mp hpw'
    exact h.eq_of_active (hgone_mem pw hpw) (hgone_mem pw' hpw') hact hact' hc

theorem Exact.mem_activeWants (h : k.Exact) {w : Want} :
    w ∈ k.after.activeWants ↔ w ∈ k.before.activeWants ∧ w ∉ k.expired := by
  rw [GoMap.mem_iff_lookup, GoMap.mem_iff_lookup, h.index]
  split
  · case isTrue hw => simp [hw]
  · case isFalse hw => simp [hw]

theorem Exact.mem_of_expired (h : k.Exact) (hc : k.before.Consistent) {w : Want}
    (hw : w ∈ k.expired) : w ∈ k.before.activeWants := by
  obtain ⟨t, ht, -⟩ := (h.reported w).mp hw
  exact hc.mem_activeWants.mpr ⟨t, ht⟩

theorem mem_before {pw : PendingWant} (hpw : pw ∈ k.after.wantQueue) :
    pw ∈ k.before.wantQueue := by
  obtain ⟨gone, hq, -⟩ := k.spec
  exact hq ▸ List.mem_append_right _ hpw

theorem waits_before {w : Want} {t : Time} (h : k.after.Waits w t) : k.before.Waits w t := by
  obtain ⟨pw, hpw, hrest⟩ := h
  exact ⟨pw, mem_before hpw, hrest⟩

theorem timer_after (k : Check) :
    k.after.checkForTimeoutsTimer = k.before.timerFor k.after.wantQueue := by
  rw [after, DontHaveTimeoutMgr.checkForTimeouts_eq]

@[simp]
theorem timeout_after (k : Check) : k.after.timeout = k.before.timeout := by
  rw [after, DontHaveTimeoutMgr.checkForTimeouts_eq]

@[simp]
theorem ctxDone_after (k : Check) : k.after.ctxDone = k.before.ctxDone := by
  rw [after, DontHaveTimeoutMgr.checkForTimeouts_eq]

@[simp]
theorem started_after (k : Check) : k.after.started = k.before.started := by
  rw [after, DontHaveTimeoutMgr.checkForTimeouts_eq]

theorem consistent_after (h : k.before.Consistent) : k.after.Consistent := by
  have hex := exact_of_consistent h
  obtain ⟨gone, hq, hgone⟩ := hex.removed
  have hnext : k.after.nextAddr = k.before.nextAddr := by
    rw [after, DontHaveTimeoutMgr.checkForTimeouts_eq]
  have hsuffix : k.after.wantQueue.Sublist k.before.wantQueue :=
    hq ▸ List.sublist_append_right _ _
  refine ⟨fun w a => ?_, h.distinct.sublist (hsuffix.map _), ?_, h.ordered.sublist hsuffix⟩
  · rw [hex.index]
    constructor
    · intro hw
      split at hw
      · cases hw
      · case isFalse hnot =>
          obtain ⟨pw, hpw, hact, hc, ha⟩ := (h.index w a).mp hw
          rw [hq] at hpw
          rcases List.mem_append.mp hpw with hpw' | hpw'
          · exact absurd ((hex.reported w).mpr
              ⟨pw.sent, ⟨pw, hq ▸ hpw, hact, hc, rfl⟩, hgone pw hpw' hact⟩) hnot
          · exact ⟨pw, hpw', hact, hc, ha⟩
    · rintro ⟨pw, hpw, hact, hc, ha⟩
      rw [if_neg, h.index]
      · exact ⟨pw, mem_before hpw, hact, hc, ha⟩
      · intro hw
        obtain ⟨t, ⟨pw', hpw', hact', hc', rfl⟩, hdue⟩ := (hex.reported w).mp hw
        obtain rfl := h.eq_of_active (mem_before hpw) hpw' hact hact' (hc.trans hc'.symm)
        exact hex.kept pw hpw hdue
  · intro pw hpw
    rw [hnext]
    exact h.fresh pw (mem_before hpw)

end Check

end BitswapAuth
