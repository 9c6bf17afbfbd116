/-
# `BitswapAuth.MessageQueue.Answered` — what is cancelled in time does not time out

The timeout manager reports a want as unanswered also when the peer has answered it, since
a response is not what takes a want out of it: a cancel is.  So it depends on the calls.  If every
want that was answered has been cancelled, or has been sent again, by the time the manager next
checks for timeouts, then none of them is reported (`not_late_of_cancelled`).

    answered      answered in time, and not sent again since
    uncancelled   those of them that no call of AddCancels has named since

An answered want that the manager still waits for is one that has not been cancelled (`Tidy`).
That needs the run loop: it handles no response between sending a message and handing the wants of
it to the manager, so that what it hands over has not been answered since it was sent.
-/
import BitswapAuth.MessageQueue.Bookkeeping

namespace BitswapAuth

open Lib

namespace Timeouts

variable {s : Timeouts}

/-- The step makes the manager check for timeouts. -/
def Checks (s : Timeouts) (a : Act) : Prop := (s.checkOn a).isSome = true

instance (s : Timeouts) (a : Act) : Decidable (s.Checks a) := inferInstanceAs (Decidable (_ = _))

/-- A want that is not added is waited for only if it was. -/
theorem mem_activeWants_of_step (h : s.Inv) {a : Act} {w : Want} (hw : NotAdded w s a)
    (hin : w ∈ (s.step a).mgr.activeWants) : w ∈ s.mgr.activeWants := by
  by_contra hout
  have hload := load_step s a h hw
  have hreports := reports_step_le w s a
  rw [load, load, if_pos hin, if_neg hout] at hload
  omega

/-- A want that is neither waited for nor added is not reported. -/
theorem reports_step_eq (h : s.Inv) {a : Act} {w : Want} (hw : NotAdded w s a)
    (hout : w ∉ s.mgr.activeWants) : reports w (s.step a) = reports w s := by
  have hload := load_step s a h hw
  have hreports := reports_step_le w s a
  rw [load, load, if_neg hout] at hload
  omega

/-- A check that follows the adding of wants finds nothing else waited for. -/
theorem checks_enqueue {w : Want} (h : s.Checks .enqueue) : w ∉ s.mgr.activeWants := by
  rw [Checks, checkOn, Option.isSome_bind] at h
  cases hadding : s.adding with
  | none =>
      rw [hadding] at h
      cases h
  | some e =>
      rw [hadding, Option.any_some, checked] at h
      refine GoMap.len_eq_zero.mp ?_ w
      by_contra hlen
      rw [if_neg] at h
      · cases h
      · exact fun hd => hlen (of_decide_eq_true hd)

/-- A call of `AddPending` is noted by itself only. -/
theorem adding_step (s : Timeouts) {a : Act} (ha : ∀ ks, a ≠ .addPending ks) :
    (s.step a).adding = s.adding ∨ (s.step a).adding = none := by
  have hclose : ∀ (s : Timeouts) r, (s.close r).adding = s.adding := by
    intro s r
    rw [close]
    split <;> rfl
  cases a with
  | pinged result =>
      cases result with
      | none =>
          rw [step]
          split <;> exact .inl rfl
      | some latency =>
          rw [step]
          split
          · exact .inl (hclose _ _)
          · exact .inl rfl
  | updateMessageLatency elapsed => exact .inl (hclose _ _)
  | addPending ks => exact absurd rfl (ha ks)
  | enqueue =>
      rw [step]
      split
      · exact .inl rfl
      · exact .inr (hclose _ _)
  | receive =>
      rw [step, receiveTimer]
      split <;> exact .inl rfl
  | check =>
      rw [step]
      split
      · exact .inl (hclose _ _)
      · exact .inl rfl
  | stop =>
      rw [step]
      split <;> exact .inl rfl
  | _ => exact .inl rfl

end Timeouts

namespace TimedQueue

/-- The step of the manager that an act is, of those that may find something due. -/
def managerAct (s : TimedQueue) : Act → Option Timeouts.Act
  | .updateLatency =>
      match s.loop with
      | .measured elapsed => some (.updateMessageLatency elapsed)
      | _ => none
  | .timeouts a => if ownAct a then some a else none
  | _ => none

/-- When the manager checks for timeouts, every want that was answered and not sent again has been
cancelled since. -/
def CancelledFirst (s : TimedQueue) (a : Act) : Prop :=
  ∀ b ∈ s.managerAct a, s.timeouts.Checks b → s.uncancelled = []

instance (s : TimedQueue) (a : Act) : Decidable (s.CancelledFirst a) :=
  inferInstanceAs (Decidable (∀ b ∈ s.managerAct a, s.timeouts.Checks b → s.uncancelled = []))

/-- What the loop is about to hand to the manager has not been answered since it was sent. -/
def Unanswered (answered : List Want) : QueueLoop → Prop
  | .sent _ _ m _ | .simulating m =>
      ∀ w e, m.wantlist.lookup w = some e → e.sendDontHave = true → w ∉ answered
  | .adding ws => ∀ w ∈ ws, w ∉ answered
  | _ => True

structure Tidy (s : TimedQueue) : Prop where
  timeouts : s.timeouts.Inv
  /-- An answered want that is still waited for has not been cancelled. -/
  waits : ∀ w ∈ s.answered, w ∈ s.timeouts.mgr.activeWants → w ∈ s.uncancelled
  loop : Unanswered s.answered s.loop
  adding : ∀ e ∈ s.timeouts.adding, s.loop = .enqueuing ∧ ∀ w ∈ e.1, w ∉ s.answered
  late : s.late = []

section

variable {s s' : TimedQueue} {a : Act}

theorem tidy_init (maxMsgSize : Nat) (maxValidLatency : Int) (p : TimeoutParams) :
    (init maxMsgSize maxValidLatency p).Tidy where
  timeouts := Timeouts.inv_init p
  waits w h := absurd h List.not_mem_nil
  loop := trivial
  adding e h := by cases h
  late := rfl

theorem Tidy.not_adding (h : s.Tidy) (hl : s.loop ≠ .enqueuing) : s.timeouts.adding = none := by
  rw [Option.eq_none_iff_forall_not_mem]
  exact fun e he => hl (h.adding e he).1

theorem Tidy.moves (h : s.Tidy) (htimeouts : s'.timeouts = s.timeouts)
    (hanswered : s'.answered = s.answered) (huncancelled : s'.uncancelled = s.uncancelled)
    (hlate : s'.late = s.late) (hloop : s'.loop = s.loop ∨ s.loop ≠ .enqueuing)
    (hun : Unanswered s.answered s'.loop) : s'.Tidy := by
  refine ⟨htimeouts ▸ h.timeouts, ?_, hanswered ▸ hun, fun e he => ?_, hlate.trans h.late⟩
  · rw [htimeouts, hanswered, huncancelled]
    exact h.waits
  · rw [htimeouts] at he
    rcases hloop with hloop | hloop
    · rw [hloop, hanswered]
      exact h.adding e he
    · exact absurd (h.adding e he).1 hloop

/-- What the manager does, when what it reports has not been answered. -/
theorem late_advance (h : s.timeouts.Inv) {b : Timeouts.Act}
    (hno : s.timeouts.Checks b → ∀ w ∈ s.answered,
      w ∉ s.timeouts.mgr.activeWants ∧ Timeouts.NotAdded w s.timeouts b) :
    (s.advance b).late = s.late := by
  have hchecks := s.timeouts.checks_step b
  show s.late ++ _ = s.late
  rw [hchecks, List.drop_left]
  refine (congrArg _ (List.filter_eq_nil_iff.mpr ?_)).trans (List.append_nil _)
  intro w hw hans
  cases hon : s.timeouts.checkOn b with
  | none =>
      rw [hon] at hw
      cases hw
  | some m =>
      have hchecked : s.timeouts.Checks b := by rw [Timeouts.Checks, hon]; rfl
      obtain ⟨hout, hadded⟩ := hno hchecked w (of_decide_eq_true hans)
      have hsame := Timeouts.reports_step_eq h hadded hout
      rw [Timeouts.reports, Timeouts.reports, hchecks, List.flatMap_append,
        List.count_append] at hsame
      have hzero := Nat.add_eq_left.mp hsame
      exact List.count_eq_zero.mp hzero hw

/-- A step of the manager that adds no wants, with the loop where it was or elsewhere. -/
theorem Tidy.advance (h : s.Tidy) {b : Timeouts.Act} {l : QueueLoop}
    (hl : l = s.loop ∨ s.loop ≠ .enqueuing) (hun : Unanswered s.answered l)
    (hb : b ≠ .enqueue ∧ ∀ ks, b ≠ .addPending ks)
    (hok : s.timeouts.Checks b → s.uncancelled = []) : ({ s with loop := l }.advance b).Tidy := by
  have hnot : ∀ w, Timeouts.NotAdded w s.timeouts b := by
    intro w
    cases b with
    | enqueue => exact absurd rfl hb.1
    | _ => trivial
  refine ⟨Timeouts.inv_step _ b h.timeouts, fun w hw hin => ?_, hun, fun e he => ?_, ?_⟩
  · exact h.waits w hw (Timeouts.mem_activeWants_of_step h.timeouts (hnot w) hin)
  · have he : e ∈ (s.timeouts.step b).adding := he
    rcases s.timeouts.adding_step hb.2 with hadding | hadding
    · rw [hadding] at he
      obtain ⟨hloop, hfree⟩ := h.adding e he
      exact ⟨(hl.resolve_right (not_not.mpr hloop)).trans hloop, hfree⟩
    · rw [hadding] at he
      cases he
  · refine (late_advance (s := { s with loop := l }) h.timeouts fun hc w hw => ⟨fun hin => ?_,
      hnot w⟩).trans h.late
    have hmem := h.waits w hw hin
    rw [hok hc] at hmem
    cases hmem

theorem Tidy.cancels (h : s.Tidy) (ks : List Want) :
    ({ s with
        cancelling := s.cancelling ++ [ks]
        uncancelled := s.uncancelled.filter (· ∉ ks) }.advance (.cancelPending ks)).Tidy := by
  have hkeeps := h.advance (l := s.loop) (.inl rfl) h.loop
    (b := .cancelPending ks) ⟨by simp, by simp⟩ fun hc => (by cases hc)
  refine ⟨hkeeps.timeouts, fun w hw hin => ?_, hkeeps.loop, hkeeps.adding, hkeeps.late⟩
  obtain ⟨hwas, hks⟩ := (DontHaveTimeoutMgr.mem_activeWants_cancelPending ks w).mp hin
  exact List.mem_filter.mpr ⟨h.waits w hw hwas, decide_eq_true hks⟩

/-- A message goes out: the wants that it asks for are not answered any more. -/
theorem Tidy.sent (h : s.Tidy) {ps bs : List Wantlist.Entry} {m : Message}
    (hl : s.loop = .sending ps bs m) (hm : m.Unmixed) :
    ({ s with loop := .sent ps bs m s.timeouts.now }.noteSent m).Tidy := by
  have hnone := h.not_adding (by rw [hl]; simp)
  refine ⟨h.timeouts, fun w hw hin => ?_, fun w e he hsend hw => ?_, fun e he => ?_, h.late⟩
  · obtain ⟨hw, hflag⟩ := List.mem_filter.mp hw
    exact List.mem_filter.mpr ⟨h.waits w hw hin, hflag⟩
  · -- an entry that asks for a DONT_HAVE is no cancel
    have hcancel : e.cancel = false := by
      refine Bool.eq_false_iff.mpr fun hc => ?_
      rw [hm w e he hc] at hsend
      cases hsend
    refine of_decide_eq_true (List.mem_filter.mp hw).2 ?_
    rw [Message.flag, he, Option.map_some, hcancel]
  · exact absurd (hnone.symm.trans he) (by simp)

theorem Tidy.adds (h : s.Tidy) {ws : List Want} (hl : s.loop = .adding ws) :
    ({ s with loop := .enqueuing }.advance (.addPending ws)).Tidy := by
  have hnone := h.not_adding (by rw [hl]; simp)
  have hfree := h.loop
  rw [hl] at hfree
  refine ⟨Timeouts.inv_step _ (.addPending ws) h.timeouts, fun w hw hin => h.waits w hw ?_, trivial,
    fun e he => ⟨rfl, ?_⟩, (late_advance h.timeouts fun hc => by cases hc).trans h.late⟩
  · exact Timeouts.mem_activeWants_of_step h.timeouts (a := .addPending ws) trivial hin
  · have he : e ∈ (s.timeouts.step (.addPending ws)).adding := he
    rw [Timeouts.step] at he
    split at he
    · rw [hnone] at he
      cases he
    · cases he
      exact hfree

theorem Tidy.enqueues (h : s.Tidy) : (s.endSend.advance .enqueue).Tidy := by
  have hnot : ∀ w ∈ s.answered, Timeouts.NotAdded w s.timeouts .enqueue :=
    fun w hw e he hin => (h.adding e he).2 w hin hw
  refine ⟨Timeouts.inv_step _ .enqueue h.timeouts, fun w hw hin => h.waits w hw ?_, trivial,
    fun e he => ?_, ?_⟩
  · exact Timeouts.mem_activeWants_of_step h.timeouts (hnot w hw) hin
  · have he : e ∈ (s.timeouts.step .enqueue).adding := he
    have hnone : (s.timeouts.step .enqueue).adding = none := by
      rw [Timeouts.step]
      split
      · assumption
      · rw [Timeouts.close]
        split <;> rfl
    rw [hnone] at he
    cases he
  · refine (late_advance (s := s.endSend) h.timeouts fun hc w hw => ?_).trans h.late
    exact ⟨Timeouts.checks_enqueue hc, hnot w hw⟩

/-- A response is recorded: what it answers in time has not been cancelled yet. -/
theorem Tidy.records (h : s.Tidy) {ks : List Want} {now : Time} {l : QueueLoop}
    (hl : s.loop = .responding ks now) (hloop : l = .select ∨ ∃ elapsed, l = .measured elapsed) :
    Tidy { s with
      mq := (s.mq.handleResponse s.maxValidLatency now ks).1
      loop := l
      answered := s.answered ++ s.inTime ks
      uncancelled := s.uncancelled ++ s.inTime ks } := by
  have hnone := h.not_adding (by rw [hl]; simp)
  refine ⟨h.timeouts, fun w hw hin => ?_, ?_, fun e he => ?_, h.late⟩
  · rcases List.mem_append.mp hw with hw | hw
    · exact List.mem_append_left _ (h.waits w hw hin)
    · exact List.mem_append_right _ hw
  · rcases hloop with rfl | ⟨elapsed, rfl⟩ <;> trivial
  · exact absurd (hnone.symm.trans he) (by simp)

/-- What is handed over is from the message that went out. -/
theorem Tidy.simulates (h : s.Tidy) {m : Message} (hl : s.loop = .simulating m) (o : RangeOrder) :
    Tidy { s with
      loop := .adding (s.mq.simulateDontHaveWithTimeout (m.wantlistEntries o)) } := by
  have hfree := h.loop
  rw [hl] at hfree
  refine h.moves rfl rfl rfl rfl (.inr (by rw [hl]; simp)) fun w hw => ?_
  obtain ⟨e, he, rfl⟩ := List.mem_map.mp hw
  obtain ⟨he, hsend⟩ := List.mem_filter.mp he
  exact hfree e.want e (Message.mem_wantlistEntries.mp he) (of_decide_eq_true hsend).2.1

theorem Tidy.beginSend (h : s.Tidy) (hl : s.loop = .select) (conn : Option Int) :
    (s.beginSend conn).Tidy := by
  have hne : s.loop ≠ .enqueuing := by rw [hl]; simp
  cases conn with
  | none => exact h.moves rfl rfl rfl rfl (.inl rfl) h.loop
  | some latency =>
      exact h.advance (.inr hne) trivial ⟨by simp, by simp⟩ fun hc => (by cases hc)

theorem Tidy.step (h : s.Tidy) (hsound : s.mq.Sound s.loop) (hok : s.CancelledFirst a)
    (hs : s.Steps a s') : s'.Tidy := by
  have away : ∀ {l}, s.loop = l → l ≠ .enqueuing → s.loop ≠ .enqueuing := fun hl hne => hl ▸ hne
  cases hs with
  | stay => exact h
  | called b _ => exact h.moves rfl rfl rfl rfl (.inl rfl) h.loop
  | cancels ks => exact h.cancels ks
  | received _ => exact h.moves rfl rfl rfl rfl (.inl rfl) h.loop
  | sends hl conn => exact h.beginSend hl conn
  | rebroadcasts hl ob op conn =>
      have h' : Tidy { s with mq := s.mq.transferRebroadcastWants ob op } :=
        h.moves rfl rfl rfl rfl (.inl rfl) h.loop
      exact h'.beginSend hl conn
  | copies hl o sup => exact h.moves rfl rfl rfl rfl (.inr (away hl (by simp))) trivial
  | discards hl => exact h.moves rfl rfl rfl rfl (.inr (away hl (by simp))) trivial
  | finishes hl hb => exact h.moves rfl rfl rfl rfl (.inr (away hl (by simp))) trivial
  | sent hl =>
      have hallows := hsound.loop
      rw [hl] at hallows
      exact h.sent hl hallows.1
  | failed hl => exact h.moves rfl rfl rfl rfl (.inr (away hl (by simp))) trivial
  | notes hl =>
      have hfree := h.loop
      rw [hl] at hfree
      exact h.moves rfl rfl rfl rfl (.inr (away hl (by simp))) hfree
  | simulates hl o => exact h.simulates hl o
  | ends hl => exact h.moves rfl rfl rfl rfl (.inr (away hl (by simp))) trivial
  | adds hl => exact h.adds hl
  | enqueues hl => exact h.enqueues
  | handles hl hr => exact h.moves rfl rfl rfl rfl (.inr (away hl (by simp))) trivial
  | records hl hloop => exact h.records hl hloop
  | measures hl =>
      refine h.advance (.inr (away hl (by simp))) trivial ⟨by simp, by simp⟩ (hok _ ?_)
      rw [managerAct, hl]
      rfl
  | shutdown => exact h.moves rfl rfl rfl rfl (.inl rfl) h.loop
  | exits hl hdone =>
      exact h.advance (.inr (away hl (by simp))) trivial ⟨by simp, by simp⟩ fun hc => (by cases hc)
  | stops hl => exact h.advance (.inl rfl) h.loop ⟨by simp, by simp⟩ fun hc => (by cases hc)
  | @manager b hown =>
      refine h.advance (.inl rfl) h.loop ⟨?_, ?_⟩ (hok b (if_pos hown))
      · rintro rfl
        cases hown
      · rintro ks rfl
        cases hown

end

/-- **What was answered and cancelled does not time out.**  In a run in which, whenever the manager
checks for timeouts, every want that was answered in time and not sent again has been cancelled
since, no such want is reported. -/
theorem not_late_of_cancelled (maxMsgSize : Nat) (maxValidLatency : Int) (p : TimeoutParams)
    (acts : List Act) (h : Meets step CancelledFirst (init maxMsgSize maxValidLatency p) acts) :
    Always step (fun s => s.late = []) (init maxMsgSize maxValidLatency p) acts := by
  have hstep : ∀ (s : TimedQueue) a, s.mq.Sound s.loop ∧ s.Tidy → s.CancelledFirst a →
      (s.step a).mq.Sound (s.step a).loop ∧ (s.step a).Tidy :=
    fun s a h hok => ⟨(tableStep s a).sound h.1, h.2.step h.1 hok (s.steps_step a)⟩
  exact always_of_meets (fun _ h => h.2.late) hstep acts
    ⟨sound_run maxMsgSize maxValidLatency p [], tidy_init maxMsgSize maxValidLatency p⟩ h

/-- A want-block is answered, and cancelled before the latency is told to the manager, which checks
then, and again when the timer goes off that was set for the first timeout. -/
theorem not_late_of_cancelled_at_once :
    let w : Want := ⟨⟨[1]⟩, [7]⟩
    let acts : List Act := [.addWants [w] [], .sendIfReady (some (40 * millisecond)),
      .snapshot ⟨.stored, .stored, .stored⟩ true, .finish, .sendMsg true, .onSent,
      .simulate .stored, .addPending, .enqueue, .timeouts (.tick (100 * millisecond)),
      .responseReceived [w], .handle, .record, .addCancels [w], .updateLatency,
      .timeouts (.tick (2100 * millisecond)), .timeouts .fire, .timeouts .receive,
      .timeouts .check]
    (run step (init 1000 (30000 * millisecond) .default) acts).answered = [w] ∧
      (run step (init 1000 (30000 * millisecond) .default) acts).timeouts.checks.length = 3 ∧
      Always step (fun s => s.late = []) (init 1000 (30000 * millisecond) .default) acts := by
  intro w acts
  refine ⟨by decide, by decide, ?_⟩
  exact not_late_of_cancelled _ _ _ _ (by decide)

end TimedQueue

end BitswapAuth
