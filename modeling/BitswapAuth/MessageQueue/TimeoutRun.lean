/-
# `BitswapAuth.MessageQueue.TimeoutRun` — the timeout manager at work

The manager with everything that acts on it: the run loop that adds wants, the callers
that cancel, the responses and the ping that change the timeout, and the timer.

    step                    takes the lock   may check
    start                   yes              no
    pinged                  yes              yes, with the new timeout
    updateMessageLatency    yes              yes, if the timeout is shorter
    addPending              no: reads the clock
    enqueue                 yes              yes, if nothing was waited for
    cancelPending           yes              no
    fire, receive           no
    check                   yes              yes
    shutdown, stop          no, yes          no

The timer puts a value into its channel, `consumeTimeouts` takes it from there and then
waits for the lock: between these the timer may be set again and fire again.  A check
that is on its way is known by the moment the timer was set for.

`timeouts_exact` is what the checks of a run report, and `check_scheduled` that one is on
its way in time while a want is waited for.
-/
import BitswapAuth.MessageQueue.Timeout

namespace BitswapAuth

open Lib DontHaveTimeoutMgr

/-- The manager, the clock, and the calls that are under way. -/
structure Timeouts where
  mgr : DontHaveTimeoutMgr
  now : Time
  /-- The call of `AddPending` that waits for the lock, with the time it has read. -/
  adding : Option (List Want × Time)
  /-- `measurePingLatency` is running. -/
  pinging : Bool
  /-- `consumeTimeouts` has a value from the timer, set for that moment. -/
  checking : Option Int
  /-- The checks there have been. -/
  checks : List Check

namespace Timeouts

inductive Act where
  | tick (d : Nat)
  | start (latency : Int)
  /-- The ping ends, with the latency if there was no error. -/
  | pinged (result : Option Int)
  | updateMessageLatency (elapsed : Int)
  | addPending (ks : List Want)
  | enqueue
  | cancelPending (ks : List Want)
  | fire
  | receive
  | check
  | shutdown
  | stop
  deriving DecidableEq

/-- A locked section ends, with its check if it has one. -/
def close (s : Timeouts) (r : DontHaveTimeoutMgr × Bool) : Timeouts :=
  if r.2 then
    { s with mgr := (r.1.checkForTimeouts s.now).1, checks := s.checks ++ [⟨r.1, s.now⟩] }
  else { s with mgr := r.1 }

/-- `consumeTimeouts` takes the value from the channel of the timer. -/
def receiveTimer (s : Timeouts) : Timeouts :=
  match s.checking, s.mgr.checkForTimeoutsTimer with
  | none, some ⟨armed, some deadline⟩ =>
      { s with
        mgr := { s.mgr with checkForTimeoutsTimer := some (Timer.take ⟨armed, some deadline⟩) }
        checking := some deadline }
  | _, _ => s

def step (s : Timeouts) : Act → Timeouts
  | .tick d => { s with now := s.now + d }
  | .start latency =>
      let r := s.mgr.start latency
      { s with mgr := r.1, pinging := s.pinging || r.2 }
  | .pinged result =>
      if s.pinging then
        match result with
        | none => { s with pinging := false }
        | some latency => { s with pinging := false }.close (s.mgr.measurePingLatency latency)
      else s
  | .updateMessageLatency elapsed => s.close (s.mgr.updateMessageLatency elapsed)
  | .addPending ks =>
      if ks.isEmpty ∨ s.adding.isSome then s else { s with adding := some (ks, s.now) }
  | .enqueue =>
      match s.adding with
      | none => s
      | some (ks, start) => { s with adding := none }.close (s.mgr.addPending ks start)
  | .cancelPending ks => { s with mgr := s.mgr.cancelPending ks }
  | .fire => { s with mgr := s.mgr.fireTimer s.now }
  | .receive => s.receiveTimer
  | .check => if s.checking.isSome then { s with checking := none }.close (s.mgr, true) else s
  | .shutdown => { s with mgr := { s.mgr with ctxDone := true } }
  -- `Shutdown` takes the lock when it has ended the context
  | .stop => if s.mgr.ctxDone then { s with mgr := s.mgr.stopTimer } else s

/-- The manager is new. -/
def init (p : TimeoutParams) : Timeouts := ⟨.new p, 0, none, false, none, []⟩

/-- How often the want has been reported. -/
def reports (w : Want) (s : Timeouts) : Nat := (s.checks.flatMap Check.expired).count w

/-- The step is not one that adds the want. -/
def NotAdded (w : Want) (s : Timeouts) : Act → Prop
  | .enqueue => ∀ e ∈ s.adding, w ∉ e.1
  | _ => True

/-! ## Where checks are made -/

/-- The manager a locked section makes its check on, if it makes one. -/
def checked (r : DontHaveTimeoutMgr × Bool) : Option DontHaveTimeoutMgr :=
  if r.2 then some r.1 else none

/-- The manager as a step has it when it comes to its check, if it does. -/
def checkOn (s : Timeouts) : Act → Option DontHaveTimeoutMgr
  | .pinged (some latency) =>
      if s.pinging then checked (s.mgr.measurePingLatency latency) else none
  | .updateMessageLatency elapsed => checked (s.mgr.updateMessageLatency elapsed)
  | .enqueue => s.adding.bind fun e => checked (s.mgr.addPending e.1 e.2)
  | .check => if s.checking.isSome then some s.mgr else none
  | _ => none

theorem checks_close (s : Timeouts) (r : DontHaveTimeoutMgr × Bool) :
    (s.close r).checks = s.checks ++ ((checked r).map fun m => ⟨m, s.now⟩).toList := by
  rw [close, checked]
  split
  · rfl
  · exact (List.append_nil _).symm

/-- A step adds the check it makes to the ones there have been. -/
theorem checks_step (s : Timeouts) (a : Act) :
    (s.step a).checks = s.checks ++ ((s.checkOn a).map fun m => ⟨m, s.now⟩).toList := by
  have hnone : s.checks = s.checks ++ ((none : Option DontHaveTimeoutMgr).map
      fun m => (⟨m, s.now⟩ : Check)).toList := (List.append_nil _).symm
  cases a with
  | pinged result =>
      cases result with
      | none =>
          rw [step]
          split <;> exact hnone
      | some latency =>
          rw [step, checkOn]
          split
          · exact checks_close { s with pinging := false } _
          · exact hnone
  | updateMessageLatency elapsed => exact checks_close s _
  | enqueue =>
      rw [step, checkOn]
      split
      · case h_1 heq =>
          rw [heq]
          exact hnone
      · case h_2 ks start heq =>
          rw [heq]
          exact checks_close { s with adding := none } _
  | check =>
      rw [step, checkOn]
      split
      · exact checks_close { s with checking := none } (s.mgr, true)
      · exact hnone
  | addPending ks =>
      rw [step]
      split <;> exact hnone
  | receive =>
      rw [step, receiveTimer]
      split <;> exact hnone
  | stop =>
      rw [step]
      split <;> exact hnone
  | tick _ | start _ | cancelPending _ | fire | shutdown => exact hnone

/-! ## Checks are made on a manager in order -/

structure Inv (s : Timeouts) : Prop where
  consistent : s.mgr.Consistent
  past : s.mgr.SentBy s.now
  /-- Nothing is put into the queue while a call of `AddPending` waits. -/
  adding : ∀ e ∈ s.adding, e.2 ≤ s.now ∧ s.mgr.SentBy e.2
  checks : ∀ k ∈ s.checks, k.before.Consistent

section

variable {s : Timeouts}

theorem inv_init (p : TimeoutParams) : Inv (init p) where
  consistent := consistent_new p
  past pw h := absurd h List.not_mem_nil
  adding e h := by cases h
  checks k h := absurd h List.not_mem_nil

theorem Inv.close {r : DontHaveTimeoutMgr × Bool} (h : Inv { s with mgr := r.1 }) :
    Inv (s.close r) := by
  rw [Timeouts.close]
  split
  · let k : Check := ⟨r.1, s.now⟩
    have hsent : ∀ {t}, r.1.SentBy t → k.after.SentBy t :=
      fun ht pw hpw => ht pw (Check.mem_before hpw)
    have hc : k.after.Consistent := Check.consistent_after h.consistent
    refine ⟨hc, hsent h.past, ?_, ?_⟩
    · intro e he
      exact ⟨(h.adding e he).1, hsent (h.adding e he).2⟩
    · intro k' hk'
      rcases List.mem_append.mp hk' with hk' | hk'
      · exact h.checks k' hk'
      · obtain rfl := List.mem_singleton.mp hk'
        exact h.consistent
  · exact h

theorem Inv.sameWants (h : Inv s) {s' : Timeouts}
    (hs : DontHaveTimeoutMgr.SameWants s.mgr s'.mgr) (hnow : s'.now = s.now)
    (hadding : s'.adding = s.adding) (hchecks : s'.checks = s.checks) : Inv s' where
  consistent := hs.consistent h.consistent
  past := hnow ▸ hs.sentBy h.past
  adding e he := by
    rw [hadding] at he
    rw [hnow]
    exact ⟨(h.adding e he).1, hs.sentBy (h.adding e he).2⟩
  checks := hchecks ▸ h.checks

theorem inv_step (s : Timeouts) (a : Act) (h : Inv s) : Inv (s.step a) := by
  cases a with
  | tick d =>
      have hle : s.now ≤ s.now + d := Nat.le_add_right _ _
      refine ⟨h.consistent, fun pw hpw => Nat.le_trans (h.past pw hpw) hle, ?_, h.checks⟩
      intro e he
      exact ⟨Nat.le_trans (h.adding e he).1 hle, (h.adding e he).2⟩
  | start latency => exact h.sameWants (sameWants_start latency) rfl rfl rfl
  | pinged result =>
      cases result with
      | none =>
          rw [step]
          split
          · exact h.sameWants ⟨rfl, rfl, rfl⟩ rfl rfl rfl
          · exact h
      | some latency =>
          rw [step]
          split
          · exact Inv.close (h.sameWants
              (sameWants_measurePingLatency latency) rfl rfl rfl)
          · exact h
  | updateMessageLatency elapsed =>
      exact Inv.close (h.sameWants
        (sameWants_updateMessageLatency elapsed) rfl rfl rfl)
  | addPending ks =>
      rw [step]
      split
      · exact h
      · refine ⟨h.consistent, h.past, ?_, h.checks⟩
        intro e he
        obtain rfl := Option.some.inj he
        exact ⟨Nat.le_refl _, h.past⟩
  | enqueue =>
      rw [step]
      split
      · exact h
      · case h_2 ks start heq =>
          obtain ⟨hle, hsent⟩ := h.adding _ heq
          obtain ⟨hc, hs⟩ := consistent_addPending h.consistent hsent ks
          refine Inv.close ⟨hc, fun pw hpw => Nat.le_trans (hs pw hpw) hle, ?_, h.checks⟩
          intro e he
          cases he
  | cancelPending ks =>
      refine ⟨consistent_cancelPending h.consistent ks,
        sentBy_cancelPending h.past ks, ?_, h.checks⟩
      intro e he
      exact ⟨(h.adding e he).1, sentBy_cancelPending (h.adding e he).2 ks⟩
  | fire => exact h.sameWants ⟨rfl, rfl, rfl⟩ rfl rfl rfl
  | receive =>
      rw [step, receiveTimer]
      split
      · exact h.sameWants ⟨rfl, rfl, rfl⟩ rfl rfl rfl
      · exact h
  | check =>
      rw [step]
      split
      · exact Inv.close (h.sameWants ⟨rfl, rfl, rfl⟩ rfl rfl rfl)
      · exact h
  | shutdown => exact h.sameWants ⟨rfl, rfl, rfl⟩ rfl rfl rfl
  | stop =>
      rw [step]
      split
      · exact h.sameWants ⟨rfl, rfl, rfl⟩ rfl rfl rfl
      · exact h

theorem inv_run (p : TimeoutParams) (acts : List Act) : Inv (run step (init p) acts) :=
  run_invariant inv_step acts (inv_init p)

/-! ## A want is reported once for each time it is added -/

/-- How often the want has been reported, and once more if it is waited for. -/
def load (w : Want) (s : Timeouts) : Nat :=
  reports w s + if w ∈ s.mgr.activeWants then 1 else 0

theorem load_eq {w : Want} {s' : Timeouts} (hmem : w ∈ s'.mgr.activeWants ↔ w ∈ s.mgr.activeWants)
    (hchecks : s'.checks = s.checks) : load w s' = load w s := by
  simp only [load, reports, hchecks, hmem]

theorem load_sameWants {w : Want} {s' : Timeouts}
    (hs : DontHaveTimeoutMgr.SameWants s.mgr s'.mgr) (hchecks : s'.checks = s.checks) :
    load w s' = load w s :=
  load_eq (by rw [hs.activeWants]) hchecks

/-- A check reports a want only by taking it out. -/
theorem load_close {r : DontHaveTimeoutMgr × Bool} (hc : r.1.Consistent) (w : Want) :
    load w (s.close r) ≤ load w { s with mgr := r.1 } := by
  rw [Timeouts.close]
  split
  · let k : Check := ⟨r.1, s.now⟩
    have hex : k.Exact := Check.exact_of_consistent hc
    have hcount : k.expired.count w + (if w ∈ k.after.activeWants then 1 else 0) ≤
        if w ∈ r.1.activeWants then 1 else 0 := by
      by_cases hw : w ∈ k.expired
      · have hin : w ∈ r.1.activeWants := hex.mem_of_expired hc hw
        have hout : w ∉ k.after.activeWants := fun h => (hex.mem_activeWants.mp h).2 hw
        rw [if_pos hin, if_neg hout, List.count_eq_one_of_mem hex.once hw]
      · have hiff : w ∈ k.after.activeWants ↔ w ∈ r.1.activeWants :=
          hex.mem_activeWants.trans (and_iff_left hw)
        rw [List.count_eq_zero_of_not_mem hw, Nat.zero_add]
        simp only [hiff, Nat.le_refl]
    have hreports : reports w { s with mgr := k.after, checks := s.checks ++ [k] } =
        reports w s + k.expired.count w := by
      simp only [reports, List.flatMap_append, List.count_append, List.flatMap_singleton]
    show reports w { s with mgr := k.after, checks := s.checks ++ [k] } + _ ≤ reports w s + _
    rw [hreports, Nat.add_assoc]
    exact Nat.add_le_add_left hcount _
  · exact Nat.le_refl _

theorem load_step {w : Want} (s : Timeouts) (a : Act) (h : Inv s) (hw : NotAdded w s a) :
    load w (s.step a) ≤ load w s := by
  cases a with
  | tick d => exact Nat.le_refl _
  | start latency =>
      exact Nat.le_of_eq (load_sameWants (sameWants_start latency) rfl)
  | pinged result =>
      cases result with
      | none =>
          rw [step]
          split <;> exact Nat.le_refl _
      | some latency =>
          have hs := sameWants_measurePingLatency (m := s.mgr) latency
          rw [step]
          split
          · refine Nat.le_trans (load_close (hs.consistent h.consistent) w) ?_
            exact Nat.le_of_eq (load_sameWants hs rfl)
          · exact Nat.le_refl _
  | updateMessageLatency elapsed =>
      have hs := sameWants_updateMessageLatency (m := s.mgr) elapsed
      refine Nat.le_trans (load_close (hs.consistent h.consistent) w) ?_
      exact Nat.le_of_eq (load_sameWants hs rfl)
  | addPending ks =>
      rw [step]
      split <;> exact Nat.le_refl _
  | enqueue =>
      rw [step]
      split
      · exact Nat.le_refl _
      · case h_2 ks start heq =>
          have hsent := (h.adding _ heq).2
          obtain ⟨hc, -⟩ := consistent_addPending h.consistent hsent ks
          refine Nat.le_trans (load_close hc w) (Nat.le_of_eq (load_eq ?_ rfl))
          rw [mem_activeWants_addPending]
          exact or_iff_left (hw _ heq)
  | cancelPending ks =>
      show reports w s + _ ≤ reports w s + _
      refine Nat.add_le_add_left ?_ _
      have himp : w ∈ (s.mgr.cancelPending ks).activeWants → w ∈ s.mgr.activeWants :=
        fun hin => ((mem_activeWants_cancelPending ks w).mp hin).1
      split
      · case isTrue hin => rw [if_pos (himp hin)]
      · exact Nat.zero_le _
  | fire => exact Nat.le_refl _
  | receive =>
      rw [step, receiveTimer]
      split <;> exact Nat.le_refl _
  | check =>
      rw [step]
      split
      · exact load_close (s := { s with checking := none }) h.consistent w
      · exact Nat.le_refl _
  | shutdown => exact Nat.le_refl _
  | stop =>
      rw [step]
      split <;> exact Nat.le_refl _

/-- Without its being added, a want is reported no more often than it is waited for. -/
theorem load_run {w : Want} : ∀ (acts : List Act) {s : Timeouts}, Inv s →
    Meets step (NotAdded w) s acts → load w (run step s acts) ≤ load w s
  | [], _, _, _ => Nat.le_refl _
  | a :: acts, s, h, hw =>
      Nat.le_trans (load_run acts (inv_step s a h) hw.2) (load_step s a h hw.1)

theorem reports_le_load (w : Want) (s : Timeouts) : reports w s ≤ load w s := Nat.le_add_right _ _

theorem reports_step_le (w : Want) (s : Timeouts) (a : Act) :
    reports w s ≤ reports w (s.step a) := by
  simp only [reports, checks_step, List.flatMap_append, List.count_append]
  exact Nat.le_add_right _ _

theorem reports_run_le (w : Want) : ∀ (acts : List Act) (s : Timeouts),
    reports w s ≤ reports w (run step s acts)
  | [], _ => Nat.le_refl _
  | a :: acts, s => Nat.le_trans (reports_step_le w s a) (reports_run_le w acts (s.step a))

/-- From when it is cancelled until it is added again, a want is not reported. -/
theorem reports_cancelled (h : Inv s) {w : Want} {ks : List Want} (hw : w ∈ ks)
    (acts : List Act) (hacts : Meets step (NotAdded w) (s.step (.cancelPending ks)) acts) :
    reports w (run step (s.step (.cancelPending ks)) acts) = reports w s := by
  have hout : w ∉ (s.step (.cancelPending ks)).mgr.activeWants := fun hin =>
    ((mem_activeWants_cancelPending ks w).mp hin).2 hw
  refine Nat.le_antisymm ?_ ?_
  · calc reports w (run step (s.step (.cancelPending ks)) acts)
        ≤ load w (run step (s.step (.cancelPending ks)) acts) := reports_le_load w _
      _ ≤ load w (s.step (.cancelPending ks)) := load_run acts (inv_step s _ h) hacts
      _ = reports w s := by rw [load, if_neg hout]; rfl
  · exact reports_run_le w acts (s.step (.cancelPending ks))

/-- A call of `AddPending` leads to one report of a want at most. -/
theorem reports_added (h : Inv s) (w : Want) (acts : List Act)
    (hacts : Meets step (NotAdded w) (s.step .enqueue) acts) :
    reports w (run step (s.step .enqueue) acts) ≤ reports w s + 1 := by
  have hone : ∀ s' : Timeouts, load w s' ≤ reports w s' + 1 := by
    intro s'
    rw [load]
    split
    · exact Nat.le_refl _
    · exact Nat.le_succ _
  have hstep : load w (s.step .enqueue) ≤ reports w s + 1 := by
    rw [step]
    split
    · exact hone s
    · case h_2 ks start heq =>
        have hsent := (h.adding _ heq).2
        obtain ⟨hc, -⟩ := consistent_addPending h.consistent hsent ks
        exact Nat.le_trans (load_close hc w) (hone _)
  calc reports w (run step (s.step .enqueue) acts)
      ≤ load w (run step (s.step .enqueue) acts) := reports_le_load w _
    _ ≤ load w (s.step .enqueue) := load_run acts (inv_step s _ h) hacts
    _ ≤ reports w s + 1 := hstep

/-- **Timeouts fire when they are due.**  In every run the map and the queue agree and the
queue is in order; every check reports each want that is due once and nothing else, and
takes out what is due and the cancelled entries before the new head; and a want is not
reported once it is cancelled, and once at most for each time it is added. -/
theorem timeouts_exact (p : TimeoutParams) (acts : List Act) :
    (run step (init p) acts).mgr.Consistent ∧
    (∀ k ∈ (run step (init p) acts).checks, k.before.Consistent ∧ k.Exact) ∧
    (∀ w ks acts', w ∈ ks →
      Meets step (NotAdded w) ((run step (init p) acts).step (.cancelPending ks)) acts' →
      reports w (run step ((run step (init p) acts).step (.cancelPending ks)) acts') =
        reports w (run step (init p) acts)) ∧
    ∀ w acts', Meets step (NotAdded w) ((run step (init p) acts).step .enqueue) acts' →
      reports w (run step ((run step (init p) acts).step .enqueue) acts') ≤
        reports w (run step (init p) acts) + 1 := by
  have h := inv_run p acts
  refine ⟨h.consistent, ?_, ?_, ?_⟩
  · intro k hk
    exact ⟨h.checks k hk, Check.exact_of_consistent (h.checks k hk)⟩
  · intro w ks acts' hw hacts
    exact reports_cancelled h hw acts' hacts
  · intro w acts' hacts
    exact reports_added h w acts' hacts

end

/-! ## A check is on its way while a want is waited for -/

/-- A check is on its way that the timer was set for at that moment. -/
def Scheduled (s : Timeouts) (deadline : Int) : Prop :=
  (∃ t, s.mgr.checkForTimeoutsTimer = some t ∧
    (t.armed = some deadline ∨ t.fired = some deadline)) ∨ s.checking = some deadline

/-- One of them was set for a moment that no want waited for is due before. -/
def InTime (s : Timeouts) : Prop :=
  ∃ deadline, s.Scheduled deadline ∧
    ∀ w t, s.mgr.Waits w t → deadline ≤ (t : Int) + s.mgr.timeout

/-- The manager is started before wants are added. -/
def StartFirst (s : Timeouts) : Act → Prop
  | .addPending _ => s.mgr.started = true
  | _ => True

instance (s : Timeouts) : ∀ a, Decidable (StartFirst s a)
  | .addPending _ => inferInstanceAs (Decidable (s.mgr.started = true))
  | .tick _ | .start _ | .pinged _ | .updateMessageLatency _ | .enqueue | .cancelPending _
  | .fire | .receive | .check | .shutdown | .stop => .isTrue trivial

/-- What is in the channel was set for a moment that has come, and not after the one the
timer is set for now. -/
def Fired (m : DontHaveTimeoutMgr) (now : Time) : Prop :=
  ∀ t ∈ m.checkForTimeoutsTimer, ∀ d ∈ t.fired, d ≤ (now : Int) ∧ ∀ d' ∈ t.armed, d ≤ d'

structure Armed (s : Timeouts) : Prop where
  inTime : s.mgr.ctxDone = false → (∃ w t, s.mgr.Waits w t) → s.InTime
  fired : Fired s.mgr s.now
  unstarted : s.mgr.started = false → (∀ w t, ¬ s.mgr.Waits w t) ∧ s.adding = none

section

variable {s : Timeouts}

theorem Scheduled.sameTimer {deadline : Int} {s' : Timeouts} (h : s.Scheduled deadline)
    (htimer : s'.mgr.checkForTimeoutsTimer = s.mgr.checkForTimeoutsTimer)
    (hchecking : s'.checking = s.checking) : s'.Scheduled deadline := by
  rw [Scheduled, htimer, hchecking]
  exact h

theorem armed_init (p : TimeoutParams) : Armed (init p) where
  inTime _ h := by
    obtain ⟨w, t, pw, hpw, -⟩ := h
    cases hpw
  fired t h := by cases h
  unstarted _ := by
    refine ⟨?_, rfl⟩
    rintro w t ⟨pw, hpw, -⟩
    cases hpw

theorem fired_after {k : Check} (hc : k.before.Consistent) (h : Fired k.before k.now) :
    Fired k.after k.now := by
  have hex := Check.exact_of_consistent hc
  rw [Fired, Check.timer_after]
  cases hq : k.after.wantQueue with
  | nil => exact h
  | cons oldest rest =>
      rw [DontHaveTimeoutMgr.timerFor]
      split
      · exact h
      · intro t ht d hd
        obtain rfl := Option.some.inj ht
        cases htimer : k.before.checkForTimeoutsTimer with
        | none =>
            rw [htimer] at hd
            cases hd
        | some t₀ =>
            rw [htimer] at hd
            have hnow := (h t₀ htimer d hd).1
            refine ⟨hnow, ?_⟩
            intro d' hd'
            obtain rfl := Option.some.inj hd'
            -- the head is not due, so that the timer is set for a moment to come
            have hnot := hex.kept oldest (hq ▸ List.mem_cons_self)
            rw [PendingWant.Due] at hnot
            omega

/-- A check that leaves a want waited for sets the timer in time. -/
theorem inTime_after {k : Check} (hc : k.before.Consistent) (hctx : k.before.ctxDone = false)
    (hw : ∃ w t, k.after.Waits w t) :
    ∃ t d, k.after.checkForTimeoutsTimer = some t ∧ t.armed = some d ∧
      ∀ w t, k.after.Waits w t → d ≤ (t : Int) + k.after.timeout := by
  have hord := (Check.consistent_after hc).ordered
  rw [Check.timer_after, Check.timeout_after]
  cases hq : k.after.wantQueue with
  | nil =>
      obtain ⟨w, t, pw, hpw, -⟩ := hw
      rw [hq] at hpw
      cases hpw
  | cons oldest rest =>
      rw [hq] at hord
      refine ⟨_, (oldest.sent : Int) + k.before.timeout,
        by rw [DontHaveTimeoutMgr.timerFor, hctx]; rfl, ?_, ?_⟩
      · cases k.before.checkForTimeoutsTimer <;> rfl
      · rintro w t ⟨pw, hpw, -, -, rfl⟩
        rw [hq] at hpw
        have hle : oldest.sent ≤ pw.sent := by
          rcases List.mem_cons.mp hpw with rfl | hpw
          · exact Nat.le_refl _
          · exact (List.pairwise_cons.mp hord).1 pw hpw
        have : (oldest.sent : Int) ≤ pw.sent := Int.ofNat_le.mpr hle
        omega

theorem Armed.close {r : DontHaveTimeoutMgr × Bool} (hc : r.1.Consistent)
    (hfired : Fired r.1 s.now)
    (hun : r.1.started = false → (∀ w t, ¬ r.1.Waits w t) ∧ s.adding = none)
    (hin : r.2 = false → r.1.ctxDone = false → (∃ w t, r.1.Waits w t) →
      InTime { s with mgr := r.1 }) : Armed (s.close r) := by
  rw [Timeouts.close]
  split
  · let k : Check := ⟨r.1, s.now⟩
    refine ⟨fun hctx hw => ?_, fired_after (k := k) hc hfired, fun hst => ?_⟩
    · obtain ⟨t, d, ht, hd, hle⟩ :=
        inTime_after (k := k) hc ((Check.ctxDone_after k).symm.trans hctx) hw
      exact ⟨d, .inl ⟨t, ht, .inl hd⟩, hle⟩
    · obtain ⟨hno, hadding⟩ := hun ((Check.started_after k).symm.trans hst)
      exact ⟨fun w t hw => hno w t (Check.waits_before (k := k) hw), hadding⟩
  · case isFalse hno => exact ⟨hin (Bool.eq_false_iff.mpr hno), hfired, hun⟩

/-- The timer fires: what was set is in the channel, or something that was set for before. -/
theorem armed_fire (h : Armed s) : Armed (s.step .fire) := by
  cases htimer : s.mgr.checkForTimeoutsTimer with
  | none =>
      have hsame : s.step .fire = s := by
        rw [step, DontHaveTimeoutMgr.fireTimer, htimer, Option.map_none, ← htimer]
      exact hsame.symm ▸ h
  | some t =>
      have hfired := h.fired t htimer
      have hafter : (s.step .fire).mgr.checkForTimeoutsTimer = some (t.elapse s.now) := by
        show s.mgr.checkForTimeoutsTimer.map _ = _
        rw [htimer, Option.map_some]
      rcases t.elapse_cases s.now with ⟨deadline, harmed, hle, heq⟩ | heq
      · rw [heq] at hafter
        refine ⟨fun hctx hw => ?_, ?_, h.unstarted⟩
        · obtain ⟨d, ⟨t', ht', hd⟩ | hd, hdue⟩ := h.inTime hctx hw
          · obtain rfl := Option.some.inj (htimer.symm.trans ht')
            cases hf : t.fired with
            | none =>
                rw [hf] at hd hafter
                have hdd : some deadline = some d := harmed.symm.trans (hd.resolve_right (by simp))
                exact ⟨d, .inl ⟨_, hafter, .inr hdd⟩, hdue⟩
            | some d₀ =>
                rw [hf] at hafter
                refine ⟨d₀, .inl ⟨_, hafter, .inr rfl⟩, fun w t hwt => ?_⟩
                refine Int.le_trans ?_ (hdue w t hwt)
                rcases hd with hd | hd
                · exact (hfired d₀ hf).2 d hd
                · exact Int.le_of_eq (Option.some.inj (hf.symm.trans hd))
          · exact ⟨d, .inr hd, hdue⟩
        · intro t' ht' d hd
          obtain rfl := Option.some.inj (hafter.symm.trans ht')
          refine ⟨?_, fun d' hd' => by cases hd'⟩
          rcases Option.or_eq_some_iff.mp hd with hd | ⟨-, hd⟩
          · exact (hfired d hd).1
          · exact Option.some.inj hd ▸ hle
      · have hsame : s.step .fire = s := by
          rw [heq, ← htimer] at hafter
          show { s with mgr := { s.mgr with checkForTimeoutsTimer := _ } } = s
          rw [show s.mgr.checkForTimeoutsTimer.map _ = _ from hafter]
        exact hsame.symm ▸ h

/-- The value is taken from the channel, and the check is still on its way. -/
theorem armed_receive (h : Armed s) : Armed (s.step .receive) := by
  rw [step, receiveTimer]
  split
  · case h_1 armed deadline hchecking htimer =>
      refine ⟨fun hctx hw => ?_, ?_, h.unstarted⟩
      · obtain ⟨d, hd, hdue⟩ := h.inTime hctx hw
        rcases hd with ⟨t, ht, harm | hfire⟩ | hd
        · obtain rfl := Option.some.inj (htimer.symm.trans ht)
          exact ⟨d, .inl ⟨_, rfl, .inl harm⟩, hdue⟩
        · obtain rfl := Option.some.inj (htimer.symm.trans ht)
          exact ⟨d, .inr hfire, hdue⟩
        · rw [hchecking] at hd
          cases hd
      · intro t ht d hd
        obtain rfl := Option.some.inj ht
        cases hd
  · exact h

/-- Wants that are added are due no earlier than the ones waited for already. -/
theorem armed_enqueue (hinv : Inv s) (h : Armed s) : Armed (s.step .enqueue) := by
  rw [step]
  split
  · exact h
  · case h_2 ks start heq =>
      have hsent := (hinv.adding _ heq).2
      have hclock := sameClock_addPending (m := s.mgr) ks start
      obtain ⟨hc, -⟩ := consistent_addPending hinv.consistent hsent ks
      refine Armed.close hc ?_ ?_ ?_
      · rw [Fired, hclock.timer]
        exact h.fired
      · intro hst
        rw [hclock.started] at hst
        rw [(h.unstarted hst).2] at heq
        cases heq
      · intro hno hctx hw
        have hne : s.mgr.activeWants.len ≠ 0 := of_decide_eq_false hno
        obtain ⟨w₀, hw₀⟩ := GoMap.len_ne_zero.mp hne
        obtain ⟨t₀, ht₀⟩ := hinv.consistent.mem_activeWants.mp hw₀
        have hle : t₀ ≤ start := by
          obtain ⟨pw, hpw, -, -, rfl⟩ := ht₀
          exact hsent pw hpw
        obtain ⟨d, hd, hdue⟩ := h.inTime (hclock.ctxDone.symm.trans hctx) ⟨w₀, t₀, ht₀⟩
        have hfirst := hdue w₀ t₀ ht₀
        refine ⟨d, hd.sameTimer hclock.timer rfl, fun w t hwt => ?_⟩
        show d ≤ (t : Int) + (s.mgr.addPending ks start).1.timeout
        rw [hclock.timeout]
        rcases waits_addPending hwt with hwt | rfl
        · exact hdue w t hwt
        · have hle' : (t₀ : Int) ≤ t := Int.ofNat_le.mpr hle
          omega

theorem armed_tick (h : Armed s) (d : Nat) : Armed (s.step (.tick d)) := by
  refine ⟨h.inTime, fun t ht d' hd' => ?_, h.unstarted⟩
  obtain ⟨hle, hrest⟩ := h.fired t ht d' hd'
  have hnow : (s.now : Int) ≤ (s.now + d : Nat) := Int.ofNat_le.mpr (Nat.le_add_right _ _)
  exact ⟨Int.le_trans hle hnow, hrest⟩

/-- Nothing is waited for yet, so that the timeout may change. -/
theorem armed_start (h : Armed s) (latency : Int) : Armed (s.step (.start latency)) := by
  rw [step, DontHaveTimeoutMgr.start]
  split
  · exact ⟨h.inTime, h.fired, h.unstarted⟩
  · case isFalse hst =>
      have hno := (h.unstarted (Bool.eq_false_iff.mpr hst)).1
      split
      · refine ⟨fun _ hw => ?_, h.fired, fun hf => by cases hf⟩
        obtain ⟨w, t, hw⟩ := hw
        exact absurd hw (hno w t)
      · refine ⟨fun _ hw => ?_, h.fired, fun hf => by cases hf⟩
        obtain ⟨w, t, hw⟩ := hw
        exact absurd hw (hno w t)

theorem armed_pinged (hinv : Inv s) (h : Armed s) (result : Option Int) :
    Armed (s.step (.pinged result)) := by
  cases result with
  | none =>
      rw [step]
      split
      · exact ⟨h.inTime, h.fired, h.unstarted⟩
      · exact h
  | some latency =>
      rw [step]
      split
      · rw [DontHaveTimeoutMgr.measurePingLatency]
        split
        · exact Armed.close hinv.consistent h.fired h.unstarted fun _ => h.inTime
        · refine Armed.close ?_ h.fired h.unstarted fun hno => by cases hno
          exact DontHaveTimeoutMgr.SameWants.consistent (m := s.mgr) ⟨rfl, rfl, rfl⟩
            hinv.consistent
      · exact h

/-- Without a check the timeout is no shorter than it was. -/
theorem armed_updateMessageLatency (hinv : Inv s) (h : Armed s) (elapsed : Int) :
    Armed (s.step (.updateMessageLatency elapsed)) := by
  have hs := sameWants_updateMessageLatency (m := s.mgr) elapsed
  refine Armed.close (hs.consistent hinv.consistent) h.fired h.unstarted ?_
  intro hno hctx hw
  have hge : ¬ (s.mgr.updateMessageLatency elapsed).1.timeout < s.mgr.timeout :=
    of_decide_eq_false hno
  obtain ⟨d, hd, hdue⟩ := h.inTime hctx hw
  refine ⟨d, hd, fun w t hwt => ?_⟩
  have := hdue w t hwt
  show d ≤ (t : Int) + (s.mgr.updateMessageLatency elapsed).1.timeout
  omega

theorem armed_addPending (h : Armed s) (ks : List Want) (hst : s.mgr.started = true) :
    Armed (s.step (.addPending ks)) := by
  rw [step]
  split
  · exact h
  · exact ⟨h.inTime, h.fired, fun hno => absurd (hst.symm.trans hno) (by decide)⟩

theorem armed_cancelPending (h : Armed s) (ks : List Want) :
    Armed (s.step (.cancelPending ks)) := by
  have hclock := sameClock_cancelPending (m := s.mgr) ks
  refine ⟨fun hctx hw => ?_, ?_, fun hst => ?_⟩
  · obtain ⟨w, t, hw⟩ := hw
    obtain ⟨d, hd, hdue⟩ := h.inTime (hclock.ctxDone.symm.trans hctx)
      ⟨w, t, waits_cancelPending hw⟩
    refine ⟨d, hd.sameTimer hclock.timer rfl, fun w t hwt => ?_⟩
    show d ≤ (t : Int) + (s.mgr.cancelPending ks).timeout
    rw [hclock.timeout]
    exact hdue w t (waits_cancelPending hwt)
  · show Fired (s.mgr.cancelPending ks) s.now
    rw [Fired, hclock.timer]
    exact h.fired
  · obtain ⟨hno, hadding⟩ := h.unstarted (hclock.started.symm.trans hst)
    exact ⟨fun w t hw => hno w t (waits_cancelPending hw), hadding⟩

theorem armed_check (hinv : Inv s) (h : Armed s) : Armed (s.step .check) := by
  rw [step]
  split
  · exact Armed.close hinv.consistent h.fired h.unstarted fun hno => by cases hno
  · exact h

theorem armed_stop (h : Armed s) : Armed (s.step .stop) := by
  rw [step]
  split
  · case isTrue hdone =>
      refine ⟨fun hctx => absurd (hdone.symm.trans hctx) (by decide), ?_, h.unstarted⟩
      intro t ht d hd
      obtain ⟨t₀, ht₀, rfl⟩ := Option.map_eq_some_iff.mp ht
      exact ⟨(h.fired t₀ ht₀ d hd).1, fun d' hd' => by cases hd'⟩
  · exact h

theorem armed_step (s : Timeouts) (a : Act) (hinv : Inv s) (h : Armed s) (hok : StartFirst s a) :
    Armed (s.step a) := by
  cases a with
  | tick d => exact armed_tick h d
  | start latency => exact armed_start h latency
  | pinged result => exact armed_pinged hinv h result
  | updateMessageLatency elapsed => exact armed_updateMessageLatency hinv h elapsed
  | addPending ks => exact armed_addPending h ks hok
  | enqueue => exact armed_enqueue hinv h
  | cancelPending ks => exact armed_cancelPending h ks
  | fire => exact armed_fire h
  | receive => exact armed_receive h
  | check => exact armed_check hinv h
  | shutdown => exact ⟨fun hctx => (by cases hctx), h.fired, h.unstarted⟩
  | stop => exact armed_stop h

theorem armed_run (p : TimeoutParams) (acts : List Act)
    (hok : Meets step StartFirst (init p) acts) : Armed (run step (init p) acts) := by
  have hstep : ∀ (s : Timeouts) a, Inv s ∧ Armed s → StartFirst s a →
      Inv (s.step a) ∧ Armed (s.step a) :=
    fun s a h hok => ⟨inv_step s a h.1, armed_step s a h.1 h.2 hok⟩
  exact (always_of_meets (fun _ h => h.2) hstep acts ⟨inv_init p, armed_init p⟩ hok).last

/-- **While a want is waited for, a check is on its way in time**, if the manager is started
before wants are added and has not been shut down. -/
theorem check_scheduled (p : TimeoutParams) (acts : List Act)
    (hstart : Meets step StartFirst (init p) acts)
    (hctx : (run step (init p) acts).mgr.ctxDone = false)
    (hactive : (run step (init p) acts).mgr.activeWants.len ≠ 0) :
    ∃ deadline, (run step (init p) acts).Scheduled deadline ∧
      ∀ w t, (run step (init p) acts).mgr.Waits w t →
        deadline ≤ (t : Int) + (run step (init p) acts).mgr.timeout := by
  obtain ⟨w, hw⟩ := GoMap.len_ne_zero.mp hactive
  obtain ⟨t, ht⟩ := (inv_run p acts).consistent.mem_activeWants.mp hw
  exact (armed_run p acts hstart).inTime hctx ⟨w, t, ht⟩

theorem check_scheduled_one_want :
    let acts : List Act := [.start (40 * millisecond), .addPending [⟨⟨[1]⟩, [7]⟩], .enqueue,
      .tick (30 * millisecond)]
    Meets step StartFirst (init .default) acts ∧
    ∃ deadline, (run step (init .default) acts).Scheduled deadline ∧
      ∀ w t, (run step (init .default) acts).mgr.Waits w t →
        deadline ≤ (t : Int) + (run step (init .default) acts).mgr.timeout :=
  ⟨by decide,
    check_scheduled _ _ (by decide) (by decide) (by decide)⟩

end

end Timeouts

end BitswapAuth
