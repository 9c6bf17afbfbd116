/-
# `BitswapAuth.MessageQueue.Latency` — the latency of a response, and how often it counts

A response names wants.  Of the times at which they were sent, as targeted wants and as
broadcasts, `handleResponse` takes the earliest that is not too old, tells the timeout manager
how long ago that was, and forgets the times of all the wants that were named.  The zero time
stands for "none yet" in the source, and `none` for the zero time here: the clock never
shows it.

The times that are left are to be those of requests that have had no response, so that a second
response for a want counts for nothing until the want is sent again.  A time is noted for every
want that was marked as sent, though, and a want can be marked as sent that is not in the message
(`broadcast_marked_unsent`).  If it was answered before, the next response to it counts once more
(`answered_twice`).  It does not happen while the two lists agree, at the end of each
extraction, about the wants that went in twice.
-/
import BitswapAuth.MessageQueue.Bookkeeping
import Mathlib.Order.Bounds.Basic

namespace BitswapAuth

open Lib

/-! ## The earliest time -/

/-- The least of some times, and nothing if there are none. -/
def Earliest (S : Set Time) : Option Time → Prop
  | none => S = ∅
  | some t => IsLeast S t

theorem Earliest.unique {S : Set Time} {o o' : Option Time} (h : Earliest S o)
    (h' : Earliest S o') : o = o' := by
  cases o with
  | none =>
      cases o' with
      | none => rfl
      | some t' =>
          have hmem : t' ∈ (∅ : Set Time) := h ▸ h'.1
          exact absurd hmem (Set.notMem_empty t')
  | some t =>
      cases o' with
      | none =>
          have hmem : t ∈ (∅ : Set Time) := h' ▸ h.1
          exact absurd hmem (Set.notMem_empty t)
      | some t' => exact congrArg some (IsLeast.unique h h')

/-- A time before all the others is the earliest with them. -/
theorem Earliest.earlier {S : Set Time} {o : Option Time} {t : Time} (h : Earliest S o)
    (hlt : ∀ t₀, o = some t₀ → t < t₀) : Earliest (S ∪ {t}) (some t) := by
  refine ⟨.inr rfl, ?_⟩
  rintro t' (ht' | rfl)
  · cases o with
    | none => exact absurd (h ▸ ht') (Set.notMem_empty t')
    | some t₀ => exact ((hlt t₀ rfl).trans_le (h.2 ht')).le
  · exact le_refl t'

/-- A time that is not before the earliest changes nothing. -/
theorem Earliest.later {S : Set Time} {t t₀ : Time} (h : Earliest S (some t₀)) (hle : t₀ ≤ t) :
    Earliest (S ∪ {t}) (some t₀) := by
  refine ⟨.inl h.1, ?_⟩
  rintro t' (ht' | rfl)
  · exact h.2 ht'
  · exact hle

namespace RecallWantlist

/-- The time recorded for a want, if the latency would be valid. -/
def validTime (r : RecallWantlist) (maxValidLatency : Int) (now : Time) (c : Want) : Set Time :=
  {t | r.sentAt.lookup c = some t ∧ (now : Int) - t < maxValidLatency}

theorem validTime_of_lookup {r : RecallWantlist} {c : Want} {sent : Time}
    (hc : r.sentAt.lookup c = some sent) (v : Int) (now : Time) :
    r.validTime v now c = if (now : Int) - sent < v then {sent} else ∅ := by
  ext t
  rw [validTime, Set.mem_ofPred_eq, hc, Option.some.injEq]
  split
  · rename_i hv
    rw [Set.mem_singleton_iff, eq_comm]
    exact and_iff_left_of_imp fun he => he ▸ hv
  · rename_i hv
    exact iff_of_false (fun h => hv (h.1 ▸ h.2)) (Set.notMem_empty t)

/-- One look at a table: the earliest time takes the recorded one into account. -/
theorem earliest_answer (r : RecallWantlist) (v : Int) (now : Time) (c : Want) {S : Set Time}
    {o : Option Time} (h : Earliest S o) :
    Earliest (S ∪ r.validTime v now c) (r.answer v now o c).2 := by
  rw [answer]
  cases hc : r.sentAt.lookup c with
  | none =>
      have hempty : r.validTime v now c = ∅ := by
        refine Set.eq_empty_of_forall_notMem fun t ht => ?_
        have hlook := ht.1
        rw [hc] at hlook
        cases hlook
      rw [hempty, Set.union_empty]
      exact h
  | some sent =>
      rw [validTime_of_lookup hc]
      dsimp only
      by_cases hv : (now : Int) - sent < v
      · rw [if_pos hv]
        split
        · rename_i hnew
          exact h.earlier hnew.1
        · rename_i hold
          cases o with
          | none => exact absurd ⟨by simp, hv⟩ hold
          | some t₀ =>
              refine h.later (Nat.not_lt.mp fun hlt => hold ⟨fun t' ht' => ?_, hv⟩)
              cases ht'
              exact hlt
      · rw [if_neg hv, Set.union_empty, if_neg fun hnew => hv hnew.2]
        exact h

theorem lookup_sentAt_answer (r : RecallWantlist) (v : Int) (now : Time) (o : Option Time)
    (c w : Want) :
    (r.answer v now o c).1.sentAt.lookup w = if w = c then none else r.sentAt.lookup w := by
  rw [answer]
  split
  · rename_i hnone
    split
    · rename_i hw
      rw [hw]
      exact hnone
    · rfl
  · exact GoMap.lookup_erase_ite

end RecallWantlist

namespace MessageQueue

/-- The times recorded for the keys of a response whose latency would be valid. -/
def validTimes (mq : MessageQueue) (maxValidLatency : Int) (now : Time) (ks : List Want) :
    Set Time :=
  {t | ∃ c ∈ ks, t ∈ mq.bcstWants.validTime maxValidLatency now c ∪
    mq.peerWants.validTime maxValidLatency now c}

/-- What a response comes to: the earliest of the valid times, and the tables without the
times of its keys. -/
structure Measured (mq : MessageQueue) (v : Int) (now : Time) (ks : List Want)
    (r : MessageQueue × Option Time) : Prop where
  earliest : Earliest (mq.validTimes v now ks) r.2
  peer : ∀ w, r.1.peerWants.sentAt.lookup w =
    if w ∈ ks then none else mq.peerWants.sentAt.lookup w
  bcst : ∀ w, r.1.bcstWants.sentAt.lookup w =
    if w ∈ ks then none else mq.bcstWants.sentAt.lookup w

theorem lookup_sentAt_handleKey (v : Int) (now : Time) (s : MessageQueue × Option Time)
    (c w : Want) :
    (handleKey v now s c).1.peerWants.sentAt.lookup w =
        (if w = c then none else s.1.peerWants.sentAt.lookup w) ∧
      (handleKey v now s c).1.bcstWants.sentAt.lookup w =
        (if w = c then none else s.1.bcstWants.sentAt.lookup w) :=
  ⟨s.1.peerWants.lookup_sentAt_answer v now _ c w, s.1.bcstWants.lookup_sentAt_answer v now _ c w⟩

/-- The times of the first key, and those of the others once they are gone. -/
theorem validTimes_cons (v : Int) (now : Time) (s : MessageQueue × Option Time) (c : Want)
    (ks : List Want) :
    s.1.validTimes v now (c :: ks) =
      s.1.bcstWants.validTime v now c ∪ s.1.peerWants.validTime v now c ∪
        (handleKey v now s c).1.validTimes v now ks := by
  ext t
  simp only [validTimes, RecallWantlist.validTime, lookup_sentAt_handleKey, Set.mem_union,
    Set.mem_ofPred_eq, List.mem_cons, exists_eq_or_imp]
  constructor
  · rintro (hc | ⟨d, hd, hdt⟩)
    · exact .inl hc
    · by_cases hdc : d = c
      · exact .inl (hdc ▸ hdt)
      · exact .inr ⟨d, hd, by simpa [hdc] using hdt⟩
  · rintro (hc | ⟨d, hd, hdt⟩)
    · exact .inl hc
    · have hdc : d ≠ c := by
        rintro rfl
        simp at hdt
      exact .inr ⟨d, hd, by simpa [hdc] using hdt⟩

/-- The loop of `handleResponse` from any point on, with the earliest of some times so far. -/
theorem measured_foldl (v : Int) (now : Time) : ∀ (ks : List Want) (s : MessageQueue × Option Time)
    (S : Set Time), Earliest S s.2 →
      Earliest (S ∪ s.1.validTimes v now ks) (ks.foldl (handleKey v now) s).2 ∧
        (∀ w, (ks.foldl (handleKey v now) s).1.peerWants.sentAt.lookup w =
          if w ∈ ks then none else s.1.peerWants.sentAt.lookup w) ∧
        ∀ w, (ks.foldl (handleKey v now) s).1.bcstWants.sentAt.lookup w =
          if w ∈ ks then none else s.1.bcstWants.sentAt.lookup w
  | [], s, S, h => by
      have hempty : s.1.validTimes v now [] = ∅ := by simp [validTimes]
      rw [hempty, Set.union_empty]
      exact ⟨h, fun w => by simp, fun w => by simp⟩
  | c :: ks, s, S, h => by
      have hone := s.1.peerWants.earliest_answer v now c
        (s.1.bcstWants.earliest_answer v now c h)
      obtain ⟨hmin, hp, hb⟩ := measured_foldl v now ks (handleKey v now s c) _ hone
      rw [List.foldl_cons]
      refine ⟨?_, fun w => ?_, fun w => ?_⟩
      · rw [validTimes_cons, ← Set.union_assoc, ← Set.union_assoc]
        exact hmin
      · rw [hp, (lookup_sentAt_handleKey v now s c w).1]
        by_cases hw : w = c <;> simp [hw]
      · rw [hb, (lookup_sentAt_handleKey v now s c w).2]
        by_cases hw : w = c <;> simp [hw]

theorem measured_handleResponse (mq : MessageQueue) (v : Int) (now : Time) (ks : List Want) :
    Measured mq v now ks (mq.handleResponse v now ks) := by
  obtain ⟨hmin, hp, hb⟩ := measured_foldl v now ks (mq, none) ∅ rfl
  rw [Set.empty_union] at hmin
  exact ⟨hmin, hp, hb⟩

/-- The keys of a response may come in any order, and more than once. -/
theorem handleResponse_congr (mq : MessageQueue) (v : Int) (now : Time) {ks ks' : List Want}
    (h : ∀ w, w ∈ ks' ↔ w ∈ ks) :
    (mq.handleResponse v now ks').2 = (mq.handleResponse v now ks).2 := by
  have hsame : mq.validTimes v now ks' = mq.validTimes v now ks := by
    ext t
    exact exists_congr fun c => and_congr_left' (h c)
  have h' := (mq.measured_handleResponse v now ks').earliest
  rw [hsame] at h'
  exact h'.unique (mq.measured_handleResponse v now ks).earliest

/-! ## Where times come from -/

/-- A time is recorded for the want, in one of the tables. -/
def HasTime (mq : MessageQueue) (w : Want) : Prop :=
  w ∈ mq.peerWants.sentAt ∨ w ∈ mq.bcstWants.sentAt

section Times

variable {mq mq' : MessageQueue} {w : Want}

theorem hasTime_add (mq : MessageQueue) (a : Add) (h : (mq.add a).HasTime w) : mq.HasTime w := by
  cases a with
  | addWants bs hs =>
      have hone : ∀ t (mq : MessageQueue) c, (mq.addWant t c).HasTime w → mq.HasTime w :=
        fun _ _ _ h => h
      exact foldl_reflect (P := (HasTime · w)) (hone .wantHave) hs
        (foldl_reflect (P := (HasTime · w)) (hone .wantBlock) bs h)
  | addBroadcastWantHaves hs =>
      have hone : ∀ (mq : MessageQueue) c, (mq.addBroadcastWantHave c).HasTime w → mq.HasTime w :=
        fun _ _ h => h
      exact foldl_reflect (P := (HasTime · w)) hone hs h
  | addCancels ks =>
      have hone : ∀ (mq : MessageQueue) c, (mq.addCancel c).HasTime w → mq.HasTime w :=
        fun _ _ h => h.imp (fun h => (AList.mem_erase.mp h).2) (fun h => (AList.mem_erase.mp h).2)
      exact foldl_reflect (P := (HasTime · w)) hone ks h

theorem hasTime_transferRebroadcastWants {ob op : RangeOrder}
    (h : (mq.transferRebroadcastWants ob op).HasTime w) : mq.HasTime w := by
  rw [transferRebroadcastWants] at h
  split at h <;> exact h

theorem hasTime_snapshot {o : Orders} {sup : Bool} (h : (mq.snapshot o sup).1.HasTime w) :
    mq.HasTime w := by
  have hdrop : ∀ (r : RecallWantlist) e, w ∈ (dropWantHave r e).sentAt → w ∈ r.sentAt := by
    intro r e hw
    rw [dropWantHave] at hw
    split at hw
    · rw [RecallWantlist.removeType] at hw
      dsimp only at hw
      split at hw
      · exact hw
      · exact (AList.mem_erase.mp hw).2
    · exact hw
  cases sup with
  | true => exact h
  | false =>
      exact h.imp_left (foldl_reflect (P := fun r : RecallWantlist => w ∈ r.sentAt) hdrop
        (mq.peerWants.pending.entries o.peer) (s := mq.peerWants))

theorem sentAt_finishEntry (s : RecallWantlist × Message) (e : Wantlist.Entry) :
    (finishEntry s e).1.sentAt = s.1.sentAt := by
  rw [finishEntry, RecallWantlist.markSent]
  split
  · rename_i heq
    split at heq
    · cases heq
    · obtain ⟨rfl, -⟩ := Prod.mk.inj heq
      rfl
  · rfl

/-- Marking as sent notes no time. -/
theorem hasTime_finish {b : Built} (h : (mq.finish b).1.HasTime w) : mq.HasTime w := by
  have hkeep : ∀ (es : List Wantlist.Entry) (s : RecallWantlist × Message),
      (es.foldl finishEntry s).1.sentAt = s.1.sentAt :=
    foldl_keeps (fun s : RecallWantlist × Message => s.1.sentAt) sentAt_finishEntry
  refine h.imp (fun hw => ?_) (fun hw => ?_)
  · rw [finish] at hw
    dsimp only at hw
    rwa [hkeep] at hw
  · rw [finish] at hw
    dsimp only at hw
    rwa [hkeep] at hw

/-- The times that `onSent` notes are those of the entries that were marked. -/
theorem hasTime_onSent {ps bs : List Wantlist.Entry} {now : Time}
    (h : (mq.onSent ps bs now).HasTime w) :
    mq.HasTime w ∨ ∃ e, (e ∈ ps ∨ e ∈ bs) ∧ e.want = w := by
  have hone : ∀ (r : RecallWantlist) (e : Wantlist.Entry), w ∈ (r.onSentEntry now e).sentAt →
      w ∈ r.sentAt ∨ e.want = w := by
    intro r e hw
    rw [RecallWantlist.onSentEntry] at hw
    split at hw
    · rw [RecallWantlist.recordSentAt] at hw
      split at hw
      · split at hw
        · exact .inl hw
        · exact ((AList.mem_insert _).mp hw).symm.imp_right Eq.symm
      · exact .inl hw
    · exact .inl hw
  have hall : ∀ (es : List Wantlist.Entry) (r : RecallWantlist),
      w ∈ (es.foldl (RecallWantlist.onSentEntry now) r).sentAt →
        w ∈ r.sentAt ∨ ∃ e ∈ es, e.want = w := by
    intro es
    induction es with
    | nil => exact fun r hw => .inl hw
    | cons e es ih =>
        intro r hw
        rcases ih _ hw with hw | ⟨e', he', hw⟩
        · rcases hone r e hw with hw | hw
          · exact .inl hw
          · exact .inr ⟨e, List.mem_cons_self, hw⟩
        · exact .inr ⟨e', List.mem_cons_of_mem e he', hw⟩
  rcases h with hw | hw
  · rcases hall ps _ hw with hw | ⟨e, he, hw⟩
    · exact .inl (.inl hw)
    · exact .inr ⟨e, .inl he, hw⟩
  · rcases hall bs _ hw with hw | ⟨e, he, hw⟩
    · exact .inl (.inr hw)
    · exact .inr ⟨e, .inr he, hw⟩

theorem hasTime_handleResponse {v : Int} {now : Time} {ks : List Want}
    (h : (mq.handleResponse v now ks).1.HasTime w) : w ∉ ks ∧ mq.HasTime w := by
  have hm := measured_handleResponse mq v now ks
  have hlook : ∀ {m m' : GoMap Want Time},
      (m'.lookup w = if w ∈ ks then none else m.lookup w) → w ∈ m' → w ∉ ks ∧ w ∈ m := by
    intro m m' heq hw
    obtain ⟨t, ht⟩ := GoMap.mem_iff_lookup.mp hw
    rw [heq] at ht
    split at ht
    · cases ht
    · rename_i hks
      exact ⟨hks, GoMap.mem_of_lookup ht⟩
  rcases h with hw | hw
  · obtain ⟨hks, hw⟩ := hlook (hm.peer w) hw
    exact ⟨hks, .inl hw⟩
  · obtain ⟨hks, hw⟩ := hlook (hm.bcst w) hw
    exact ⟨hks, .inr hw⟩

/-- A want that has a time after a step had one before it, or is one of those whose time the
loop was about to note. -/
theorem TableStep.hasTime {l l' : QueueLoop} (hc : TableStep mq l mq' l') (h : mq'.HasTime w) :
    mq.HasTime w ∨ ∃ ps bs message now, l = .sent ps bs message now ∧
      ∃ e, (e ∈ ps ∨ e ∈ bs) ∧ e.want = w := by
  cases hc with
  | add a l => exact .inl (hasTime_add mq a h)
  | move hl => exact .inl h
  | rebroadcast ob op hl => exact .inl (hasTime_transferRebroadcastWants h)
  | snapshot o sup => exact .inl (hasTime_snapshot h)
  | finish sup snap => exact .inl (hasTime_finish h)
  | discard sup snap full => exact .inl (hasTime_finish (b := mq.build sup snap) h)
  | onSent ps bs message now =>
      exact (hasTime_onSent h).imp_right fun he => ⟨ps, bs, message, now, rfl, he⟩
  | record v ks now hl => exact .inl (hasTime_handleResponse h).2
  | reset l full => exact .inl h

end Times

end MessageQueue

/-! ## Runs, with the wants that wait for a response -/

/-- No message is being handed over, and no time about to be noted. -/
def QueueLoop.Quiet : QueueLoop → Prop
  | .sending .. | .sent .. => False
  | _ => True

/-- The message that was filled, if there is one, has no want that the two lists disagree about. -/
def QueueLoop.Agrees (mq : MessageQueue) : QueueLoop → Prop
  | .building supportsHave snap => mq.Agree (mq.build supportsHave snap)
  | _ => True

instance (mq : MessageQueue) : (l : QueueLoop) → Decidable (l.Agrees mq)
  | .building supportsHave snap =>
      inferInstanceAs (Decidable (mq.Agree (mq.build supportsHave snap)))
  | .select | .extracting | .sending .. | .sent .. | .simulating _ | .adding _ | .enqueuing
  | .responding .. | .measured _ | .stopped => isTrue trivial

namespace TimedQueue

/-- Only finishing a message brings the loop to hand one over, and only that to note its time. -/
theorem Steps.loop {s s' : TimedQueue} {a : Act} (h : s.Steps a s') (hf : a ≠ .finish)
    (hm : ∀ ok, a ≠ .sendMsg ok) : s'.loop = s.loop ∨ s'.loop.Quiet := by
  cases h with
  | stay | called | cancels | received | shutdown | stops | manager => exact .inl rfl
  | copies | notes | simulates | ends | adds | enqueues | handles | measures | exits =>
      exact .inr trivial
  | sends hl conn | rebroadcasts hl ob op conn =>
      cases conn with
      | none => exact .inl rfl
      | some latency => exact .inr trivial
  | records hl hloop =>
      obtain rfl | ⟨elapsed, rfl⟩ := hloop
      · exact .inr trivial
      · exact .inr trivial
  | discards | finishes => exact absurd rfl hf
  | sent | failed => exact absurd rfl (hm _)

/-- The manager once it is told of the earliest time a response answers, if there is one. -/
def told (s : TimedQueue) (now : Time) : Option Time → Timeouts
  | none => s.timeouts
  | some earliest => s.timeouts.step (.updateMessageLatency ((now : Int) - earliest))

/-- A response that is read is handled, and the manager is told the latency: once, if there is an
earliest time, and not at all otherwise. -/
theorem told_of_responding (s : TimedQueue) {ks : List Want} {now : Time}
    (h : s.loop = .responding ks now) :
    (run step s [.record, .updateLatency]).timeouts =
      s.told now (s.mq.handleResponse s.maxValidLatency now ks).2 := by
  show ((s.step .record).step .updateLatency).timeouts = _
  rw [step.eq_def s, h]
  dsimp only
  cases (s.mq.handleResponse s.maxValidLatency now ks).2 with
  | none => rfl
  | some earliest => rfl

end TimedQueue

/-- A queue, and which wants have gone out since they were last answered. -/
structure Watch where
  q : TimedQueue
  unanswered : Want → Bool

namespace Watch

open TimedQueue (Act)

def isFinish : Act → Bool
  | .finish => true
  | _ => false

/-- A message that is handed over adds the wants it asks for, and a response takes out those it
names. -/
def unansweredAfter (s : Watch) : Act → Want → Bool
  | .sendMsg ok, w =>
      match s.q.loop with
      | .sending _ _ message => (ok && decide (message.flag w = some false)) || s.unanswered w
      | _ => s.unanswered w
  | .record, w =>
      match s.q.loop with
      | .responding ks _ => decide (w ∉ ks) && s.unanswered w
      | _ => s.unanswered w
  | _, w => s.unanswered w

def step (s : Watch) (a : Act) : Watch := ⟨s.q.step a, s.unansweredAfter a⟩

def start (maxMsgSize : Nat) (maxValidLatency : Int) (p : TimeoutParams) : Watch :=
  ⟨.init maxMsgSize maxValidLatency p, fun _ => false⟩

/-- When a message is finished, the two lists agree about the wants that went in twice. -/
def Agrees (s : Watch) (a : Act) : Prop := isFinish a = true → s.q.loop.Agrees s.q.mq

instance (s : Watch) (a : Act) : Decidable (s.Agrees a) :=
  inferInstanceAs (Decidable (isFinish a = true → s.q.loop.Agrees s.q.mq))

/-- The wants whose time the loop is about to note are asked for in the message, and once that is
handed over they have gone out. -/
def Waits (s : Watch) : Prop :=
  (∀ ps bs m, s.q.loop = .sending ps bs m → ∀ e, e ∈ ps ∨ e ∈ bs → m.flag e.want = some false) ∧
    ∀ ps bs m now, s.q.loop = .sent ps bs m now →
      ∀ e, e ∈ ps ∨ e ∈ bs → s.unanswered e.want = true

structure Inv (s : Watch) : Prop where
  sound : s.q.mq.Sound s.q.loop
  times : ∀ w, s.q.mq.HasTime w → s.unanswered w = true
  waits : s.Waits

section

variable {s : Watch}

/-- Only a response takes a want out. -/
theorem unanswered_step (s : Watch) (a : Act) (ha : a ≠ .record) {w : Want}
    (h : s.unanswered w = true) : (s.step a).unanswered w = true := by
  cases a with
  | sendMsg ok =>
      show s.unansweredAfter (.sendMsg ok) w = true
      rw [unansweredAfter]
      split
      · rw [h, Bool.or_true]
      · exact h
  | record => exact absurd rfl ha
  | _ => exact h

theorem Inv.hasTime_step (h : s.Inv) (a : Act) (w : Want) (hw : (s.step a).q.mq.HasTime w) :
    (s.step a).unanswered w = true := by
  have hbefore : s.unanswered w = true := by
    rcases (TimedQueue.tableStep s.q a).hasTime hw with hw | ⟨ps, bs, m, now, hl, e, he, rfl⟩
    · exact h.times w hw
    · exact h.waits.2 ps bs m now hl e he
  by_cases ha : a = .record
  · -- the times of the wants that are named are cleared
    subst ha
    show s.unansweredAfter .record w = true
    rw [unansweredAfter]
    split
    · rename_i ks now hl
      have hmq : (s.step .record).q.mq =
          (s.q.mq.handleResponse s.q.maxValidLatency now ks).1 := by
        show (s.q.step .record).mq = _
        rw [TimedQueue.step, hl]
      rw [hmq] at hw
      rw [hbefore, Bool.and_true, decide_eq_true_iff]
      exact (MessageQueue.hasTime_handleResponse hw).1
    · exact hbefore
  · exact s.unanswered_step a ha hbefore

/-- Nothing is awaited where the loop is quiet. -/
theorem waits_of_quiet (h : s.q.loop.Quiet) : s.Waits := by
  refine ⟨fun ps bs m hl => ?_, fun ps bs m now hl => ?_⟩
  · rw [hl] at h
    exact h.elim
  · rw [hl] at h
    exact h.elim

/-- A message whose lists agree asks for all that is marked as sent. -/
theorem Inv.waits_finish (h : s.Inv) (hok : s.Agrees .finish) : (s.step .finish).Waits := by
  by_cases hl : ∃ sup snap, s.q.loop = .building sup snap
  · obtain ⟨sup, snap, hl⟩ := hl
    have hsound := h.sound
    rw [hl] at hsound
    have hagree : s.q.mq.Agree (s.q.mq.build sup snap) := by
      have h' := hok rfl
      rw [hl] at h'
      exact h'
    have hmarked := (MessageQueue.sentAsMarked_iff hsound.finish.1 s.q.mq).mpr hagree
    have hstep : (s.step .finish).q.loop = .select ∨ (s.step .finish).q.loop =
        .sending (s.q.mq.peerWants.marked (s.q.mq.build sup snap).sentPeerEntries)
          (s.q.mq.bcstWants.marked (s.q.mq.build sup snap).sentBcstEntries)
          (s.q.mq.finish (s.q.mq.build sup snap)).2 := by
      show (s.q.step .finish).loop = _ ∨ (s.q.step .finish).loop = _
      rw [TimedQueue.step, hl]
      dsimp only
      split
      · exact .inl rfl
      · exact .inr rfl
    rcases hstep with hstep | hstep
    · exact waits_of_quiet (hstep ▸ trivial)
    · refine ⟨fun ps bs m hnew e he => ?_, fun ps bs m now hnew => ?_⟩
      · rw [hstep] at hnew
        cases hnew
        exact he.elim (fun he => (hmarked.peer e he).1) fun he => (hmarked.bcst e he).1
      · rw [hstep] at hnew
        cases hnew
  · have hsame : s.q.step .finish = s.q := by
      rw [TimedQueue.step]
      split
      · rename_i sup snap hl'
        exact absurd ⟨sup, snap, hl'⟩ hl
      · rfl
    show (⟨s.q.step .finish, s.unanswered⟩ : Watch).Waits
    rw [hsame]
    exact h.waits

theorem Inv.waits_sendMsg (h : s.Inv) (ok : Bool) : (s.step (.sendMsg ok)).Waits := by
  by_cases hl : ∃ ps bs m, s.q.loop = .sending ps bs m
  · obtain ⟨ps, bs, m, hl⟩ := hl
    cases ok with
    | true =>
        have hstep : (s.step (.sendMsg true)).q.loop = .sent ps bs m s.q.timeouts.now := by
          show (s.q.step (.sendMsg true)).loop = _
          rw [TimedQueue.step, hl]
          rfl
        refine ⟨fun ps' bs' m' hnew => ?_, fun ps' bs' m' now hnew e he => ?_⟩
        · rw [hstep] at hnew
          cases hnew
        · rw [hstep] at hnew
          cases hnew
          show s.unansweredAfter (.sendMsg true) e.want = true
          rw [unansweredAfter, hl]
          simp [h.waits.1 ps bs m hl e he]
    | false =>
        have hstep : (s.step (.sendMsg false)).q.loop = .select := by
          show (s.q.step (.sendMsg false)).loop = _
          rw [TimedQueue.step, hl]
          rfl
        exact waits_of_quiet (hstep ▸ trivial)
  · have hsame : s.q.step (.sendMsg ok) = s.q := by
      rw [TimedQueue.step]
      split
      · rename_i ps bs m hl'
        exact absurd ⟨ps, bs, m, hl'⟩ hl
      · rfl
    refine ⟨fun ps bs m hnew => ?_, fun ps bs m now hnew e he => ?_⟩
    · exact h.waits.1 ps bs m (by rw [← hsame]; exact hnew)
    · refine s.unanswered_step (.sendMsg ok) (by simp) ?_
      exact h.waits.2 ps bs m now (by rw [← hsame]; exact hnew) e he

theorem Inv.waits_step (h : s.Inv) (a : Act) (hok : s.Agrees a) : (s.step a).Waits := by
  by_cases hf : a = .finish
  · subst hf
    exact h.waits_finish hok
  by_cases hm : ∃ ok, a = .sendMsg ok
  · obtain ⟨ok, rfl⟩ := hm
    exact h.waits_sendMsg ok
  rcases (s.q.steps_step a).loop hf (fun ok he => hm ⟨ok, he⟩) with hsame | hquiet
  · refine ⟨fun ps bs m hnew => h.waits.1 ps bs m (hsame.symm.trans hnew), ?_⟩
    intro ps bs m now hnew e he
    have hl : s.q.loop = .sent ps bs m now := hsame.symm.trans hnew
    have hbefore := h.waits.2 ps bs m now hl e he
    by_cases ha : a = .record
    · subst ha
      show s.unansweredAfter .record e.want = true
      rw [unansweredAfter, hl]
      exact hbefore
    · exact s.unanswered_step a ha hbefore
  · exact waits_of_quiet hquiet

theorem inv_step (s : Watch) (a : Act) (h : s.Inv) (hok : s.Agrees a) : (s.step a).Inv :=
  ⟨(TimedQueue.tableStep s.q a).sound h.sound, h.hasTime_step a, h.waits_step a hok⟩

theorem inv_start (n : Nat) (v : Int) (p : TimeoutParams) : (start n v p).Inv := by
  refine ⟨TimedQueue.sound_run n v p [], fun w hw => ?_, fun ps bs m hl => ?_,
    fun ps bs m now hl => ?_⟩
  · exact absurd hw (not_or.mpr ⟨AList.notMem_empty w, AList.notMem_empty w⟩)
  · cases hl
  · cases hl

/-- A response counts for those of its keys only that have gone out since they were last
answered. -/
theorem handleResponse_filter (h : ∀ w, s.q.mq.HasTime w → s.unanswered w = true) (v : Int)
    (now : Time) (ks : List Want) :
    (s.q.mq.handleResponse v now ks).2 =
      (s.q.mq.handleResponse v now (ks.filter s.unanswered)).2 := by
  have hsame : s.q.mq.validTimes v now ks = s.q.mq.validTimes v now (ks.filter s.unanswered) := by
    ext t
    constructor
    · rintro ⟨c, hc, ht⟩
      refine ⟨c, List.mem_filter.mpr ⟨hc, h c ?_⟩, ht⟩
      rcases ht with ht | ht
      · exact .inr (GoMap.mem_of_lookup ht.1)
      · exact .inl (GoMap.mem_of_lookup ht.1)
    · rintro ⟨c, hc, ht⟩
      exact ⟨c, List.mem_of_mem_filter hc, ht⟩
  have hall := (MessageQueue.measured_handleResponse s.q.mq v now ks).earliest
  rw [hsame] at hall
  exact hall.unique (MessageQueue.measured_handleResponse s.q.mq v now _).earliest

end

/-- **What a response counts for.**  In every state a queue reaches, a response leads to the
latency of the earliest valid time of its keys, in whatever order they come, and the manager is
told that latency or, if there is none, nothing; the times of its keys are gone and the others as
they were.  And a key counts only if its want has gone out since it was last answered, provided
that at the end of every extraction so far the two lists agreed about the wants that went in
twice. -/
theorem latency_counts_once (maxMsgSize : Nat) (maxValidLatency : Int) (p : TimeoutParams)
    (acts : List Act) :
    let s := run step (start maxMsgSize maxValidLatency p) acts
    (∀ v now ks, MessageQueue.Measured s.q.mq v now ks (s.q.mq.handleResponse v now ks) ∧
      ∀ ks', (∀ w, w ∈ ks' ↔ w ∈ ks) →
        (s.q.mq.handleResponse v now ks').2 = (s.q.mq.handleResponse v now ks).2) ∧
    (∀ ks now, s.q.loop = .responding ks now →
      (run TimedQueue.step s.q [.record, .updateLatency]).timeouts =
        s.q.told now (s.q.mq.handleResponse s.q.maxValidLatency now ks).2) ∧
    (Meets step Agrees (start maxMsgSize maxValidLatency p) acts → ∀ v now ks,
      (s.q.mq.handleResponse v now ks).2 =
        (s.q.mq.handleResponse v now (ks.filter s.unanswered)).2) := by
  intro s
  refine ⟨fun v now ks => ⟨s.q.mq.measured_handleResponse v now ks, ?_⟩,
    fun ks now h => s.q.told_of_responding h, fun hok v now ks => ?_⟩
  · exact fun ks' h => s.q.mq.handleResponse_congr v now h
  · have hinv := (always_of_meets (P := Inv) (fun _ h => h) inv_step acts
      (inv_start maxMsgSize maxValidLatency p) hok).last
    exact handleResponse_filter hinv.times v now ks

/-- A want is sent and answered: a second response to it counts for nothing. -/
theorem latency_counts_once_answered :
    let w : Want := ⟨⟨[1]⟩, [7]⟩
    let acts : List Act := [.addWants [] [w], .sendIfReady (some (40 * millisecond)),
      .snapshot ⟨.stored, .stored, .stored⟩ true, .finish, .sendMsg true, .onSent,
      .simulate .stored, .addPending, .timeouts (.tick (100 * millisecond)),
      .responseReceived [w], .handle, .record, .updateLatency]
    let s := run step (start 1000 (30000 * millisecond) .default) acts
    let now : Time := 200 * millisecond
    s.unanswered w = false ∧ (s.q.mq.handleResponse (30000 * millisecond) now [w]).2 =
      (s.q.mq.handleResponse (30000 * millisecond) now []).2 := by
  intro w acts s now
  have hw : s.unanswered w = false := by decide
  have hmain := (latency_counts_once 1000 (30000 * millisecond) .default acts).2.2
    (by decide) (30000 * millisecond) now [w]
  refine ⟨hw, hmain.trans ?_⟩
  have hnone : [w].filter s.unanswered = [] := by
    rw [List.filter_cons_of_neg (by rw [hw]; decide), List.filter_nil]
  rw [show [w].filter _ = [] from hnone]

/-- A want-have is sent, for the peer and as a broadcast, and answered.  In the rebroadcast, it is
made a want-block while the message is filled: the message goes out without it, the broadcast is
marked as sent, and its time is noted.  The next response to it counts, though it has not been sent
again. -/
theorem answered_twice :
    let w : Want := ⟨⟨[1]⟩, [7]⟩
    let u : Want := ⟨⟨[2]⟩, [7]⟩
    let s := run step (start 1000 (30000 * millisecond) .default)
      [.addWants [] [w], .addBroadcastWantHaves [w], .sendIfReady (some (40 * millisecond)),
        .snapshot ⟨.stored, .stored, .stored⟩ true, .finish, .sendMsg true, .onSent,
        .simulate .stored, .addPending, .timeouts (.tick (100 * millisecond)),
        .responseReceived [w], .handle, .record, .updateLatency,
        .addWants [] [u], .rebroadcast .stored .stored (some (40 * millisecond)),
        .snapshot ⟨.stored, .stored, .stored⟩ true, .addWants [w] [], .finish, .sendMsg true,
        .onSent]
    let now : Time := 200 * millisecond
    s.unanswered w = false ∧
      (s.q.mq.handleResponse (30000 * millisecond) now [w]).2 = some (100 * millisecond) ∧
      (s.q.mq.handleResponse (30000 * millisecond) now []).2 = none := by
  decide

end Watch

end BitswapAuth
