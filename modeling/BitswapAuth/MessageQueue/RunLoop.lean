/-
# `BitswapAuth.MessageQueue.RunLoop` — when the queue sends

`runQueue` of the package `messagequeue`.  Whoever adds work puts a signal into a channel
with one place.  The loop does not send at the first signal: it sets a timer, and sets it
again with every further signal, until nothing has come for `sendMessageDebounce`, or
until it has been putting the work off for `sendMessageMaxDelay`.

    loop at       next
    starting      stop: the timer is made with no delay, and stopped
    select        receiveWork, receiveTimer, or a call of the queue
    draining      drain: take the value out of the timer's channel
    deciding      decide: send at once, or set the timer
    due           sendIfReady
    calling       in a call of the queue, where, says `TimedQueue.loop`
    rechecking    recheck: signal again if something is left

`AddCancels` signals when it has given the lock back, so that anything may come in
between.  The other two signal under the lock.  To read the clock and to set the timer
takes no time.

`debounced_reached`: in every run the loop never waits for a value of the timer that does
not come, and work that is scheduled is not put off for longer than `sendMessageMaxDelay`
and one `sendMessageDebounce`, however many signals come.
-/
import BitswapAuth.MessageQueue.Responses

namespace BitswapAuth

open Lib

namespace MessageQueue

/-- `workReady` of `AddCancels`: one of the wants was sent, when it came to it. -/
def workReady : MessageQueue → List Want → Bool
  | _, [] => false
  | mq, c :: cancelKs =>
      decide (c ∈ mq.bcstWants.sent ∨ c ∈ mq.peerWants.sent) || workReady (mq.addCancel c) cancelKs

end MessageQueue

/-- `sendMessageDebounce`. -/
def sendMessageDebounce : Nat := millisecond

/-- `sendMessageCutoff`. -/
def sendMessageCutoff : Nat := 256

/-- `sendMessageMaxDelay`. -/
def sendMessageMaxDelay : Nat := 20 * millisecond

/-- Where `runQueue` is. -/
inductive RunPoint where
  | starting
  | select
  /-- In `<-scheduleWork.C` after `Stop`, before the loop or in it. -/
  | draining (inLoop : Bool)
  | deciding
  | due
  | calling
  | rechecking
  deriving DecidableEq

/-- A queue with its run loop, and the calls that have yet to signal. -/
structure RunLoop where
  q : TimedQueue
  outgoingWork : Option Time
  scheduleWork : Timer Int
  workScheduled : Option Time
  point : RunPoint
  /-- The calls of `AddCancels` that have work ready and have not signalled yet. -/
  signalling : Nat

namespace RunLoop

inductive Act where
  | queue (a : TimedQueue.Act)
  | stop
  | drain
  | receiveWork
  | decide
  | receiveTimer
  | recheck
  /-- One of the calls of `AddCancels` goes on. -/
  | signal
  /-- The timer goes off. -/
  | fire

/-- Where the loop is when it makes the step; nothing if another goroutine makes it. -/
def turn : TimedQueue.Act → Option RunPoint
  | .sendIfReady _ => some .due
  | .rebroadcast .. | .handle | .exit => some .select
  | .snapshot .. | .finish | .sendMsg _ | .onSent | .simulate _ | .addPending | .enqueue
  | .record | .updateLatency => some .calling
  | .addWants .. | .addBroadcastWantHaves _ | .addCancels _ | .removeCancelled _
  | .responseReceived _ | .shutdown | .stop | .timeouts _ => none

/-- Where the loop goes on when the step has ended the call.  Only `sendMessage` that comes
to its end looks whether something is left. -/
def backTo : TimedQueue.Act → RunPoint
  | .addPending | .enqueue => .rechecking
  | _ => .select

/-- `signalWorkReady`. -/
def signalWorkReady (s : RunLoop) : RunLoop :=
  { s with outgoingWork := s.outgoingWork.or (some s.q.timeouts.now) }

/-- A step of another goroutine. -/
def call (s : RunLoop) (a : TimedQueue.Act) : RunLoop :=
  match a with
  | .addWants wantBlocks wantHaves =>
      if wantBlocks.isEmpty ∧ wantHaves.isEmpty then s
      else { s with q := s.q.step a }.signalWorkReady
  | .addBroadcastWantHaves wantHaves =>
      if wantHaves.isEmpty then s else { s with q := s.q.step a }.signalWorkReady
  | .removeCancelled i =>
      match s.q.cancelling[i]? with
      | none => s
      | some ks =>
          { s with
            q := s.q.step a
            signalling := if s.q.mq.workReady ks then s.signalling + 1 else s.signalling }
  | _ => { s with q := s.q.step a }

/-- The loop in a call of the queue, or at the point where it goes on after it. -/
def goOn (s : RunLoop) (back : RunPoint) (q : TimedQueue) : RunLoop :=
  { s with
    q := q
    point := match q.loop with
      | .select => back
      | _ => .calling }

/-- A step of the loop in a call of the queue, or into one. -/
def resume (s : RunLoop) (a : TimedQueue.Act) : RunLoop := s.goOn (backTo a) (s.q.step a)

/-- Too many updates, or waited too long. -/
def SendsNow (s : RunLoop) : Prop :=
  sendMessageCutoff < s.q.mq.pendingWorkCount ∨
    ∀ t ∈ s.workScheduled, (sendMessageMaxDelay : Int) ≤ (s.q.timeouts.now : Int) - t

instance (s : RunLoop) : Decidable s.SendsNow :=
  inferInstanceAs (Decidable (_ ∨ _))

def step (s : RunLoop) : Act → RunLoop
  | .queue a =>
      match turn a with
      | none => s.call a
      | some point => if s.point = point then s.resume a else s
  | .stop =>
      match s.point with
      | .starting =>
          let r := s.scheduleWork.stop
          { s with scheduleWork := r.1, point := if r.2 then .select else .draining false }
      | _ => s
  | .drain =>
      match s.point, s.scheduleWork.fired with
      | .draining inLoop, some _ =>
          { s with
            scheduleWork := s.scheduleWork.take
            point := if inLoop then .deciding else .select }
      | _, _ => s
  | .receiveWork =>
      match s.point, s.outgoingWork with
      | .select, some time =>
          match s.workScheduled with
          | none => { s with outgoingWork := none, workScheduled := some time, point := .deciding }
          | some _ =>
              let r := s.scheduleWork.stop
              { s with
                outgoingWork := none
                scheduleWork := r.1
                point := if r.2 then .deciding else .draining true }
      | _, _ => s
  | .decide =>
      match s.point with
      | .deciding =>
          -- the source clears the variable after the send, where nobody else sees it
          if s.SendsNow then { s with workScheduled := none, point := .due }
          else
            { s with
              scheduleWork := s.scheduleWork.reset (s.q.timeouts.now + sendMessageDebounce)
              point := .select }
      | _ => s
  | .receiveTimer =>
      match s.point, s.scheduleWork.fired with
      | .select, some _ =>
          { s with
            scheduleWork := s.scheduleWork.take
            workScheduled := none
            point := .due }
      | _, _ => s
  | .recheck =>
      match s.point with
      | .rechecking =>
          if 0 < s.q.mq.pendingWorkCount then { s with point := .select }.signalWorkReady
          else { s with point := .select }
      | _ => s
  | .signal =>
      if 0 < s.signalling then { s with signalling := s.signalling - 1 }.signalWorkReady else s
  | .fire => { s with scheduleWork := s.scheduleWork.elapse s.q.timeouts.now }

/-- `Startup`. -/
def init (maxMsgSize : Nat) (maxValidLatency : Int) (p : TimeoutParams) : RunLoop :=
  ⟨.init maxMsgSize maxValidLatency p, none, .new 0, none, .starting, 0⟩

/-! ## Debouncing -/

/-- The timer is set just when work is scheduled, and not too late. -/
def Timely (timer : Timer Int) : Option Time → Prop
  | none => timer = ⟨none, none⟩
  | some time => ∃ d, timer.SetFor d ∧ d < time + sendMessageMaxDelay + sendMessageDebounce

/-- The timer and the scheduled work at each point of the loop. -/
def Scheduled (s : RunLoop) : Prop :=
  match s.point with
  | .starting => s.workScheduled = none ∧ ∃ d, s.scheduleWork.SetFor d
  | .draining inLoop => s.workScheduled.isSome = inLoop ∧ ∃ d, s.scheduleWork = ⟨none, some d⟩
  | .deciding => s.workScheduled.isSome ∧ s.scheduleWork = ⟨none, none⟩
  | .due => s.workScheduled = none ∧ s.scheduleWork = ⟨none, none⟩
  | .select | .calling | .rechecking => Timely s.scheduleWork s.workScheduled

section

variable {s : RunLoop}

/-- A step of another goroutine leaves the loop's variables. -/
theorem scheduled_call (h : s.Scheduled) (a : TimedQueue.Act) : (s.call a).Scheduled := by
  rw [call.eq_def]
  split
  · split <;> exact h
  · split <;> exact h
  · split <;> exact h
  · exact h

/-- Where the loop makes its steps on the queue, the timer is as at its `select`. -/
theorem Scheduled.timely (h : s.Scheduled) {a : TimedQueue.Act} (hturn : turn a = some s.point) :
    Timely s.scheduleWork s.workScheduled := by
  rw [Scheduled] at h
  cases hp : s.point with
  | select | calling | rechecking => rw [hp] at h; exact h
  | due =>
      rw [hp] at h
      rw [h.1]
      exact h.2
  | starting | draining | deciding =>
      rw [hp] at hturn
      cases a <;> cases hturn

/-- Such a step ends at the `select`, at the look at what is left, or in a call. -/
theorem point_resume (s : RunLoop) (a : TimedQueue.Act) :
    (s.resume a).point = .calling ∨ (s.resume a).point = .rechecking ∨
      (s.resume a).point = .select := by
  rw [resume, goOn]
  dsimp only
  split
  · cases a <;> first | exact .inr (.inl rfl) | exact .inr (.inr rfl)
  · exact .inl rfl

theorem scheduled_resume (h : s.Scheduled) {a : TimedQueue.Act} (hturn : turn a = some s.point) :
    (s.resume a).Scheduled := by
  have htimely := h.timely hturn
  rw [Scheduled]
  rcases s.point_resume a with hp | hp | hp <;> (rw [hp]; exact htimely)

theorem Timely.elapse {timer : Timer Int} {work : Option Time} (h : Timely timer work)
    (now : Int) : Timely (timer.elapse now) work := by
  cases work with
  | none =>
      obtain rfl : timer = ⟨none, none⟩ := h
      rfl
  | some time =>
      obtain ⟨d, hset, hd⟩ := h
      exact ⟨d, hset.elapse now, hd⟩

theorem scheduled_fire (h : s.Scheduled) : (s.step .fire).Scheduled := by
  rw [Scheduled] at h
  unfold step
  rw [Scheduled]
  dsimp only
  cases hp : s.point with
  | starting =>
      rw [hp] at h
      obtain ⟨hwork, d, hset⟩ := h
      exact ⟨hwork, d, hset.elapse _⟩
  | draining inLoop =>
      rw [hp] at h
      obtain ⟨hwork, d, hset⟩ := h
      exact ⟨hwork, d, by rw [hset]; rfl⟩
  | deciding | due =>
      rw [hp] at h
      exact ⟨h.1, by rw [h.2]; rfl⟩
  | select | calling | rechecking =>
      rw [hp] at h
      exact Timely.elapse h _

/-- The timer is stopped before the loop begins, and its value is waited for if it has gone off
already. -/
theorem scheduled_stop (h : s.Scheduled) : (s.step .stop).Scheduled := by
  unfold step
  dsimp only
  split
  · rename_i hp
    rw [Scheduled, hp] at h
    obtain ⟨hwork, d, hset⟩ := h
    rcases hset.stop with hstop | hstop
    · rw [hstop]
      show Timely _ s.workScheduled
      rw [hwork]
      rfl
    · rw [hstop]
      exact ⟨by rw [hwork]; rfl, d, rfl⟩
  · exact h

theorem scheduled_drain (h : s.Scheduled) : (s.step .drain).Scheduled := by
  unfold step
  dsimp only
  split
  · rename_i inLoop _ hp _
    rw [Scheduled, hp] at h
    obtain ⟨hwork, d, hset⟩ := h
    cases inLoop with
    | true => exact ⟨hwork, by rw [hset]; rfl⟩
    | false =>
        show Timely _ s.workScheduled
        rw [Option.isSome_eq_false_iff, Option.isNone_iff_eq_none] at hwork
        rw [hwork, hset]
        rfl
  · exact h

/-- A signal comes: the timer is not set yet, or it is stopped. -/
theorem scheduled_receiveWork (h : s.Scheduled) : (s.step .receiveWork).Scheduled := by
  unfold step
  dsimp only
  split
  · rename_i time hp _
    rw [Scheduled, hp] at h
    split
    · rename_i hwork
      rw [hwork] at h
      exact ⟨rfl, h⟩
    · rename_i t hwork
      rw [hwork] at h
      obtain ⟨d, hset, -⟩ := h
      have hsome : s.workScheduled.isSome = true := by rw [hwork]; rfl
      rcases hset.stop with hstop | hstop
      · rw [hstop]
        exact ⟨hsome, rfl⟩
      · rw [hstop]
        exact ⟨hsome, d, rfl⟩
  · exact h

/-- The delay has been looked at, so that the new moment is one debounce after that. -/
theorem scheduled_decide (h : s.Scheduled) : (s.step .decide).Scheduled := by
  unfold step
  dsimp only
  split
  · rename_i hp
    rw [Scheduled, hp] at h
    obtain ⟨hwork, htimer⟩ := h
    split
    · exact ⟨rfl, htimer⟩
    · rename_i hnot
      obtain ⟨t, ht⟩ := Option.isSome_iff_exists.mp hwork
      have hsoon : ¬ (sendMessageMaxDelay : Int) ≤ (s.q.timeouts.now : Int) - t := by
        intro hlate
        refine hnot (.inr fun t' ht' => ?_)
        rw [ht] at ht'
        cases ht'
        exact hlate
      show Timely _ s.workScheduled
      rw [ht, htimer]
      exact ⟨_, .inl rfl, by omega⟩
  · exact h

/-- The timer had one value, which is taken. -/
theorem scheduled_receiveTimer (h : s.Scheduled) : (s.step .receiveTimer).Scheduled := by
  unfold step
  dsimp only
  split
  · rename_i d hp hd
    rw [Scheduled, hp] at h
    refine ⟨rfl, ?_⟩
    cases hwork : s.workScheduled with
    | none =>
        rw [hwork] at h
        rw [show s.scheduleWork = ⟨none, none⟩ from h]
        rfl
    | some t =>
        rw [hwork] at h
        obtain ⟨d', hset | hset, -⟩ := h
        · rw [hset] at hd
          cases hd
        · rw [hset]
          rfl
  · exact h

theorem scheduled_recheck (h : s.Scheduled) : (s.step .recheck).Scheduled := by
  unfold step
  dsimp only
  split
  · rename_i hp
    rw [Scheduled, hp] at h
    split <;> exact h
  · exact h

theorem scheduled_queue (h : s.Scheduled) (a : TimedQueue.Act) :
    (s.step (.queue a)).Scheduled := by
  unfold step
  dsimp only
  split
  · exact scheduled_call h a
  · rename_i point hturn
    split
    · rename_i hpoint
      exact scheduled_resume h (hpoint ▸ hturn)
    · exact h

theorem scheduled_step (s : RunLoop) (a : Act) (h : s.Scheduled) : (s.step a).Scheduled := by
  cases a with
  | queue a => exact scheduled_queue h a
  | stop => exact scheduled_stop h
  | drain => exact scheduled_drain h
  | receiveWork => exact scheduled_receiveWork h
  | decide => exact scheduled_decide h
  | receiveTimer => exact scheduled_receiveTimer h
  | recheck => exact scheduled_recheck h
  | signal =>
      rw [step]
      split <;> exact h
  | fire => exact scheduled_fire h

/-- What the timer is for. -/
structure Debounced (s : RunLoop) : Prop where
  /-- When the loop waits for the timer's value, the value is there. -/
  drains : ∀ inLoop, s.point = .draining inLoop → s.scheduleWork.fired.isSome
  /-- With no work scheduled, the timer does not wake the loop. -/
  still : s.point = .select → s.workScheduled = none → s.scheduleWork = ⟨none, none⟩
  /-- Work that is scheduled has its moment, no later than `sendMessageMaxDelay` and one
  `sendMessageDebounce` after the signal. -/
  bounded : ∀ time, s.point = .select → s.workScheduled = some time →
    ∃ d, s.scheduleWork.SetFor d ∧ d < time + sendMessageMaxDelay + sendMessageDebounce

theorem Scheduled.debounced (h : s.Scheduled) : s.Debounced := by
  rw [Scheduled] at h
  refine ⟨fun inLoop hp => ?_, fun hp hwork => ?_, fun time hp hwork => ?_⟩
  · rw [hp] at h
    obtain ⟨-, d, hd⟩ := h
    rw [hd]
    rfl
  · rw [hp, hwork] at h
    exact h
  · rw [hp, hwork] at h
    exact h

end

/-- **Debouncing.**  In every run, the loop never waits for a value of the timer that does
not come; and work that is scheduled is due within the bound, whatever signals come in. -/
theorem debounced_reached (maxMsgSize : Nat) (maxValidLatency : Int) (p : TimeoutParams)
    (acts : List Act) : (run step (init maxMsgSize maxValidLatency p) acts).Debounced := by
  have hinit : (init maxMsgSize maxValidLatency p).Scheduled := ⟨rfl, 0, .inl rfl⟩
  exact (run_invariant scheduled_step acts hinit).debounced

end RunLoop

end BitswapAuth
