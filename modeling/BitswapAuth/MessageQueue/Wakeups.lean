/-
# `BitswapAuth.MessageQueue.Wakeups` — work that nobody looks at any more

Pending work is sent when the run loop comes to look at it.  Something has to make it: a
signal in the channel, a call that is about to put one there, the timer, or a
`sendMessage` that looks at the end whether something is left.

One way out of `sendMessage` skips that look.  If the message is empty it returns at once.
The message is built from a copy of what is pending, up to the maximum size; while it is
built, everything that went in may be cancelled, and a cancel of a want that was never sent
gives no signal.  Then the message comes out empty, and what did not fit stays behind:

    pending  a b     AddWants
    copied   a b
    message  a       the maximum size is reached
    pending    b     AddCancels of a
    message          a is taken out again; sendMessage returns

`always_covered_iff`: this is the only way.  The work is covered all along a run just when
no message that was cut short comes out empty with work left and no other signal under way.
-/
import BitswapAuth.MessageQueue.Drain
import BitswapAuth.MessageQueue.RunLoop

namespace BitswapAuth

open Lib

/-- `sendMessage` is under way. -/
def QueueLoop.inSend : QueueLoop → Bool
  | .extracting | .building .. | .sending .. | .sent .. | .simulating _ | .adding _
  | .enqueuing => true
  | .select | .responding .. | .measured _ | .stopped => false

namespace MessageQueue

/-! ## What an extraction leaves -/

/-- All pending work is in the copy. -/
structure Snapshot.Holds (snap : Snapshot) (mq : MessageQueue) : Prop where
  peer : ∀ w e, mq.peerWants.pending.set.lookup w = some e → e ∈ snap.peerEntries
  bcst : ∀ w e, mq.bcstWants.pending.set.lookup w = some e → e ∈ snap.bcstEntries
  cancels : ∀ c ∈ mq.cancels, c ∈ snap.cancels

/-- Not everything that was copied went into the message. -/
def Built.CutShort (b : Built) (snap : Snapshot) : Prop :=
  b.sentPeerEntries.length < snap.peerEntries.length ∨
    b.sentBcstEntries.length < snap.bcstEntries.length ∨ b.sentCancels.length < snap.cancels.length

/-- All work of one queue is work of another. -/
structure WorkWithin (mq mq' : MessageQueue) : Prop where
  peer : ∀ w e, mq.peerWants.pending.set.lookup w = some e →
    mq'.peerWants.pending.set.lookup w = some e
  bcst : ∀ w e, mq.bcstWants.pending.set.lookup w = some e →
    mq'.bcstWants.pending.set.lookup w = some e
  cancels : ∀ c ∈ mq.cancels, c ∈ mq'.cancels

section

variable {mq mq' mq'' : MessageQueue} {snap : Snapshot}

theorem WorkWithin.refl (mq : MessageQueue) : WorkWithin mq mq :=
  ⟨fun _ _ h => h, fun _ _ h => h, fun _ h => h⟩

theorem WorkWithin.trans (h : WorkWithin mq mq') (h' : WorkWithin mq' mq'') :
    WorkWithin mq mq'' :=
  ⟨fun w e he => h'.peer w e (h.peer w e he), fun w e he => h'.bcst w e (h.bcst w e he),
    fun c hc => h'.cancels c (h.cancels c hc)⟩

theorem WorkWithin.holds (h : WorkWithin mq mq') (hs : snap.Holds mq') : snap.Holds mq :=
  ⟨fun w e he => hs.peer w e (h.peer w e he), fun w e he => hs.bcst w e (h.bcst w e he),
    fun c hc => hs.cancels c (h.cancels c hc)⟩

theorem WorkWithin.done (h : WorkWithin mq mq') (hz : mq'.pendingWorkCount = 0) :
    mq.pendingWorkCount = 0 := by
  obtain ⟨hb, hp, hc⟩ := pendingWorkCount_eq_zero.mp hz
  refine pendingWorkCount_eq_zero.mpr ⟨fun w hw => ?_, fun w hw => ?_, fun w hw => ?_⟩
  · obtain ⟨e, he⟩ := Wantlist.mem_iff.mp hw
    exact hb w (Wantlist.mem_iff.mpr ⟨e, h.bcst w e he⟩)
  · obtain ⟨e, he⟩ := Wantlist.mem_iff.mp hw
    exact hp w (Wantlist.mem_iff.mpr ⟨e, h.peer w e he⟩)
  · exact hc w (h.cancels w hw)

theorem lookup_pending_remove {r : RecallWantlist} {c w : Want} {e : Wantlist.Entry}
    (h : (r.remove c).pending.set.lookup w = some e) : r.pending.set.lookup w = some e := by
  have hw : w ∈ (r.remove c).pending := Wantlist.mem_iff.mpr ⟨e, h⟩
  obtain ⟨hne, -⟩ := RecallWantlist.mem_pending_remove.mp hw
  rw [RecallWantlist.remove, Wantlist.remove] at h
  split at h
  · exact (AList.lookup_erase_ne hne).symm.trans h
  · exact h

/-- Cancels of wants that were never sent add no work. -/
theorem workWithin_addCancels : ∀ (ks : List Want) {mq : MessageQueue}, mq.workReady ks = false →
    WorkWithin (mq.addCancels ks) mq
  | [], mq, _ => WorkWithin.refl mq
  | c :: ks, mq, h => by
      rw [workReady, Bool.or_eq_false_iff, decide_eq_false_iff_not] at h
      have hone : WorkWithin (mq.addCancel c) mq := by
        refine ⟨fun w e he => lookup_pending_remove he, fun w e he => lookup_pending_remove he, ?_⟩
        rw [addCancel]
        dsimp only
        rw [if_neg h.1]
        exact fun _ hc => hc
      exact (workWithin_addCancels ks h.2).trans hone

/-- What is pending after the first locked section has been copied. -/
theorem holds_snapshot (mq : MessageQueue) (o : Orders) (sup : Bool) :
    (mq.snapshot o sup).2.Holds (mq.snapshot o sup).1 := by
  have hentries : ∀ {l : Wantlist} {r : RangeOrder} {w e}, l.set.lookup w = some e →
      e ∈ l.entries r := by
    intro l r w e he
    exact Wantlist.mem_entries.mpr ((l.keyed w e he).symm ▸ he)
  have hcancels : ∀ c ∈ mq.cancels, c ∈ o.cancels.range mq.cancels.keys := fun c hc =>
    RangeOrder.mem_range.mpr (AList.mem_keys.mpr hc)
  cases sup with
  | true => exact ⟨fun w e he => hentries he, fun w e he => hentries he, hcancels⟩
  | false =>
      refine ⟨fun w e he => ?_, fun w e he => hentries he, hcancels⟩
      have hlook := (lookup_foldl_dropWantHave (mq.peerWants.pending.entries o.peer)
        mq.peerWants w).1
      have he' := hlook.symm.trans he
      refine List.mem_filter.mpr ?_
      split at he'
      · obtain ⟨he', ht⟩ := Wantlist.onlyBlock_eq_some.mp he'
        exact ⟨hentries he', by rw [ht]; decide⟩
      · rename_i hno
        refine ⟨hentries he', decide_eq_true fun ht => hno ?_⟩
        exact ⟨e, hentries he', mq.peerWants.pending.keyed w e he', ht⟩

/-- One entry at `FINISH`: what is still pending was so before, and is not the entry. -/
theorem lookup_pending_finishEntry {s : RecallWantlist × Message} {e e' : Wantlist.Entry}
    {w : Want} (h : (finishEntry s e).1.pending.set.lookup w = some e') :
    s.1.pending.set.lookup w = some e' ∧ e' ≠ e := by
  by_cases hw : e.want = w
  · subst hw
    rcases s.1.markSent_cases e with hno | ⟨r, hyes, -, hpending, -⟩
    · rw [finishEntry, hno] at h
      refine ⟨h, ?_⟩
      rintro rfl
      -- an entry that is pending as it was copied would have been marked
      cases congrArg Prod.snd (hno.symm.trans (RecallWantlist.markSent_of_lookup h))
    · rw [finishEntry, hyes] at h
      exact absurd rfl ((hpending _).mp (Wantlist.mem_iff.mpr ⟨e', h⟩)).1
  · have hsame := congrArg Prod.fst (seen_finishEntry_of_ne s e hw)
    have hbefore : s.1.pending.set.lookup w = some e' := hsame.symm.trans h
    refine ⟨hbefore, ?_⟩
    rintro rfl
    exact hw (s.1.pending.keyed w e' hbefore)

/-- When all that was pending went into the message, nothing is pending at the end. -/
theorem notMem_pending_foldl_finishEntry : ∀ (es : List Wantlist.Entry)
    (s : RecallWantlist × Message), (∀ w e, s.1.pending.set.lookup w = some e → e ∈ es) →
      ∀ w, w ∉ (es.foldl finishEntry s).1.pending
  | [], s, h, w => fun hw => by
      obtain ⟨e, he⟩ := Wantlist.mem_iff.mp hw
      cases h w e he
  | e :: es, s, h, w => by
      refine notMem_pending_foldl_finishEntry es (finishEntry s e) (fun w' e' he' => ?_) w
      obtain ⟨hbefore, hne⟩ := lookup_pending_finishEntry he'
      exact (List.mem_cons.mp (h w' e' hbefore)).resolve_left hne

theorem notMem_foldl_finishCancel : ∀ (cs : List Want) (s : GoSet Want × Message),
    (∀ c ∈ s.1, c ∈ cs) → ∀ c, c ∉ (cs.foldl finishCancel s).1
  | [], s, h, c => fun hc => by cases h c hc
  | c₀ :: cs, s, h, c => by
      refine notMem_foldl_finishCancel cs (finishCancel s c₀) (fun c' hc' => ?_) c
      rw [finishCancel] at hc'
      split at hc'
      · obtain ⟨hne, hmem⟩ := GoSet.mem_remove.mp hc'
        exact (List.mem_cons.mp (h c' hmem)).resolve_left hne
      · rename_i hno
        refine (List.mem_cons.mp (h c' hc')).resolve_left ?_
        rintro rfl
        exact hno (GoSet.has_eq_true.mpr hc')

/-- An extraction that had copied all the work and did not reach the maximum size leaves
nothing. -/
theorem pendingWorkCount_finish (h : snap.Holds mq) {n : Nat} {msg : Message} {sup : Bool}
    (hcut : ¬ (buildMessage n msg sup snap).CutShort snap) :
    (mq.finish (buildMessage n msg sup snap)).1.pendingWorkCount = 0 := by
  obtain ⟨cs, ps, bs, hcs, ⟨k, hps⟩, ⟨k', hbs⟩, heq⟩ := buildMessage_eq n msg sup snap
  rw [heq] at hcut ⊢
  rw [Built.CutShort, not_or, not_or] at hcut
  obtain ⟨hp, hb, hc⟩ := hcut
  have hpperm := sortIfNeeded_perm n k snap.peerEntries
  have hbperm := sortIfNeeded_perm n k' snap.bcstEntries
  obtain rfl : cs = snap.cancels := hcs.eq_of_length_le (Nat.not_lt.mp hc)
  obtain rfl : ps = sortIfNeeded n k snap.peerEntries :=
    hps.eq_of_length_le (hpperm.length_eq.trans_le (Nat.not_lt.mp hp))
  obtain rfl : bs = sortIfNeeded n k' snap.bcstEntries :=
    hbs.eq_of_length_le (hbperm.length_eq.trans_le (Nat.not_lt.mp hb))
  refine pendingWorkCount_eq_zero.mpr ⟨?_, ?_, ?_⟩
  · exact notMem_pending_foldl_finishEntry _ _ fun w e he => hbperm.mem_iff.mpr (h.bcst w e he)
  · exact notMem_pending_foldl_finishEntry _ _ fun w e he => hpperm.mem_iff.mpr (h.peer w e he)
  · exact notMem_foldl_finishCancel _ _ h.cancels

end

end MessageQueue

open MessageQueue

namespace RunLoop

/-! ## The wake-ups -/

/-- Something will bring the loop from its `select` to look at the work. -/
def Woken (s : RunLoop) : Prop :=
  s.outgoingWork.isSome ∨ 0 < s.signalling ∨ s.workScheduled.isSome

/-- The loop is about to look, or will before it is at its `select` again. -/
def Attending (s : RunLoop) : Prop :=
  s.point = .due ∨ s.point = .rechecking ∨ s.q.loop.inSend

instance (s : RunLoop) : Decidable s.Woken := inferInstanceAs (Decidable (_ ∨ _ ∨ _))

instance (s : RunLoop) : Decidable s.Attending := inferInstanceAs (Decidable (_ ∨ _ ∨ _))

/-- Pending work is not forgotten, as long as the queue has not been shut down. -/
def Covered (s : RunLoop) : Prop :=
  s.q.ctxDone = true ∨ s.q.mq.pendingWorkCount = 0 ∨ s.Woken ∨ s.Attending

instance (s : RunLoop) : Decidable s.Covered := inferInstanceAs (Decidable (_ ∨ _ ∨ _ ∨ _))

/-- When a message that was cut short comes out empty, then nothing is left, or the loop
will be woken again. -/
def NoneLeft (s : RunLoop) : Act → Prop
  | .queue .finish => ∀ sup snap, s.q.loop = .building sup snap →
      (buildMessage s.q.mq.maxMessageSize s.q.mq.msg sup snap).CutShort snap →
        (s.q.mq.finish (buildMessage s.q.mq.maxMessageSize s.q.mq.msg sup snap)).2.empty = true →
          s.q.ctxDone = true ∨
            (s.q.mq.finish
              (buildMessage s.q.mq.maxMessageSize s.q.mq.msg sup snap)).1.pendingWorkCount = 0 ∨
            s.Woken
  | _ => True

/-- What holds of the loop besides: it is in a call when the queue says so, it stops only
when the queue is shut down, and work that is not in the copy has been signalled. -/
structure Inv (s : RunLoop) : Prop where
  placed : s.point = .calling ↔ s.q.loop ≠ .select
  stopped : s.q.loop = .stopped → s.q.ctxDone = true
  copied : ∀ sup snap, s.q.loop = .building sup snap → s.Woken ∨ snap.Holds s.q.mq
  covered : s.Covered

section

variable {s s' : RunLoop}

/-- Whoever signals wakes the loop, whatever else is changed. -/
theorem woken_signalWorkReady (s : RunLoop) : s.signalWorkReady.Woken := by
  refine .inl ?_
  rw [signalWorkReady]
  cases s.outgoingWork <;> rfl

/-- A step that leaves the loop where it is and wakes it. -/
theorem Inv.of_woken (h : s.Inv) (hpoint : s'.point = s.point) (hloop : s'.q.loop = s.q.loop)
    (hdone : s'.q.ctxDone = s.q.ctxDone) (hwoken : s'.Woken) : s'.Inv := by
  refine ⟨?_, ?_, fun _ _ _ => .inl hwoken, .inr (.inr (.inl hwoken))⟩
  · rw [hpoint, hloop]
    exact h.placed
  · rw [hloop, hdone]
    exact h.stopped

/-- A step that leaves the loop where it is, and adds no work. -/
theorem Inv.of_within (h : s.Inv) (hpoint : s'.point = s.point) (hloop : s'.q.loop = s.q.loop)
    (hdone : s.q.ctxDone = true → s'.q.ctxDone = true) (hwoken : s.Woken → s'.Woken)
    (hwork : WorkWithin s'.q.mq s.q.mq) : s'.Inv := by
  refine ⟨?_, ?_, fun sup snap hb => ?_, ?_⟩
  · rw [hpoint, hloop]
    exact h.placed
  · rw [hloop]
    exact fun hs => hdone (h.stopped hs)
  · rw [hloop] at hb
    exact (h.copied sup snap hb).imp hwoken hwork.holds
  · rw [Covered, Attending, hpoint, hloop]
    exact h.covered.imp hdone (Or.imp hwork.done (Or.imp_left hwoken))

theorem inv_call (h : s.Inv) {a : TimedQueue.Act} (hturn : turn a = none) : (s.call a).Inv := by
  cases a with
  | addWants | addBroadcastWantHaves =>
      rw [call]
      split
      · exact h
      · exact h.of_woken rfl rfl rfl (woken_signalWorkReady _)
  | addCancels | responseReceived =>
      show Inv { s with q := s.q.step _ }
      rw [TimedQueue.step]
      split
      · exact h
      · exact h.of_within rfl rfl id id (.refl _)
  | removeCancelled i =>
      cases hks : s.q.cancelling[i]? with
      | none =>
          simp only [call, hks]
          exact h
      | some ks =>
          simp only [call, TimedQueue.step, hks]
          cases hready : s.q.mq.workReady ks with
          | true => exact h.of_woken rfl rfl rfl (.inr (.inl (Nat.succ_pos _)))
          | false => exact h.of_within rfl rfl id id (workWithin_addCancels ks hready)
  | shutdown => exact h.of_within rfl rfl (fun _ => rfl) id (.refl _)
  | stop | timeouts =>
      show Inv { s with q := s.q.step _ }
      rw [TimedQueue.step]
      split
      · exact h.of_within rfl rfl id id (.refl _)
      · exact h
  | _ => cases hturn

/-! ### Steps of the loop on the queue -/

variable {q : TimedQueue} {back : RunPoint} {a : TimedQueue.Act}

theorem backTo_ne_calling (a : TimedQueue.Act) : backTo a ≠ .calling := by
  cases a <;> simp [backTo]

theorem goOn_of_ne (hloop : q.loop ≠ .select) :
    s.goOn back q = { s with q := q, point := .calling } := by
  rw [goOn]
  split
  · rename_i h
    exact absurd h hloop
  · rfl

theorem goOn_of_eq (hloop : q.loop = .select) :
    s.goOn back q = { s with q := q, point := back } := by
  rw [goOn, hloop]

theorem placed_goOn :
    (s.goOn (backTo a) q).point = .calling ↔ (s.goOn (backTo a) q).q.loop ≠ .select := by
  by_cases hloop : q.loop = .select
  · rw [goOn_of_eq hloop]
    exact ⟨fun h => absurd h (backTo_ne_calling a), fun h => absurd hloop h⟩
  · rw [goOn_of_ne hloop]
    exact ⟨fun _ => hloop, fun _ => rfl⟩

/-- Nothing to do: the loop is where it was. -/
theorem Inv.goOn_self (h : s.Inv) (hpoint : s.point = .calling ∨ s.point = back) :
    (s.goOn back s.q).Inv := by
  have hsame : s.goOn back s.q = s := by
    by_cases hloop : s.q.loop = .select
    · rw [goOn_of_eq hloop, ← hpoint.resolve_left fun hp => h.placed.mp hp hloop]
    · rw [goOn_of_ne hloop, ← h.placed.mpr hloop]
  rw [hsame]
  exact h

/-- Into a send, or on in it. -/
theorem inv_goOn_send (hsend : q.loop.inSend = true)
    (hcopied : ∀ sup snap, q.loop = .building sup snap → snap.Holds q.mq) :
    (s.goOn (backTo a) q).Inv := by
  refine ⟨placed_goOn, fun hs => ?_, fun sup snap hb => .inr (hcopied sup snap hb),
    .inr (.inr (.inr (.inr (.inr hsend))))⟩
  have hs' : q.loop = .stopped := hs
  rw [hs'] at hsend
  cases hsend

/-- Out of a call, with the loop at its `select` or in a call that is no send. -/
theorem inv_goOn_out (hstopped : q.loop = .stopped → q.ctxDone = true)
    (hout : q.loop.inSend = false) (hcovered : (s.goOn (backTo a) q).Covered) :
    (s.goOn (backTo a) q).Inv := by
  refine ⟨placed_goOn, hstopped, fun sup snap hb => ?_, hcovered⟩
  have hb' : q.loop = .building sup snap := hb
  rw [hb'] at hout
  cases hout

/-- `sendMessage` begins: the sender is there, or the queue is shut down. -/
theorem inv_goOn_beginSend (hloop : q.loop = .select) (conn : Option Int) :
    (s.goOn (backTo a) (q.beginSend conn)).Inv := by
  cases conn with
  | none =>
      have hloop' : (q.beginSend none).loop = .select := hloop
      refine inv_goOn_out (fun _ => rfl) ?_ (.inl rfl)
      rw [hloop']
      rfl
  | some latency =>
      refine inv_goOn_send rfl fun sup snap hb => ?_
      cases hb

/-- The loop handles a response, which adds no work. -/
theorem Inv.goOn_respond (h : s.Inv) (hpoint : s.point = .select ∨ s.point = .calling)
    (hsend : s.q.loop.inSend = false) (hout : q.loop.inSend = false)
    (hstopped : q.loop ≠ .stopped) (hdone : q.ctxDone = s.q.ctxDone)
    (hwork : WorkWithin q.mq s.q.mq) : (s.goOn (backTo a) q).Inv := by
  refine inv_goOn_out (fun hs => absurd hs hstopped) hout ?_
  rcases h.covered with hd | hz | hw | hp | hp | hp
  · exact .inl (hdone.trans hd)
  · exact .inr (.inl (hwork.done hz))
  · exact .inr (.inr (.inl hw))
  · rcases hpoint with hp' | hp' <;> (rw [hp'] at hp; cases hp)
  · rcases hpoint with hp' | hp' <;> (rw [hp'] at hp; cases hp)
  · rw [hsend] at hp
    cases hp

theorem Inv.loop_of_ne (h : s.Inv) (hpoint : s.point ≠ .calling) : s.q.loop = .select :=
  not_not.mp fun hloop => hpoint (h.placed.mpr hloop)

theorem pending_answer (r : RecallWantlist) (maxValidLatency : Int) (now : Time)
    (earliest : Option Time) (c : Want) :
    (r.answer maxValidLatency now earliest c).1.pending = r.pending := by
  rw [RecallWantlist.answer]
  split <;> rfl

theorem workWithin_handleResponse (mq : MessageQueue) (maxValidLatency : Int) (now : Time)
    (ks : List Want) : WorkWithin (mq.handleResponse maxValidLatency now ks).1 mq := by
  have hstep : ∀ (r : MessageQueue × Option Time) c, WorkWithin r.1 mq →
      WorkWithin (handleKey maxValidLatency now r c).1 mq := by
    intro r c hr
    refine ⟨fun w e he => hr.peer w e ?_, fun w e he => hr.bcst w e ?_, hr.cancels⟩
    · rw [handleKey] at he
      dsimp only at he
      rwa [pending_answer] at he
    · rw [handleKey] at he
      dsimp only at he
      rwa [pending_answer] at he
  exact run_invariant hstep ks (.refl mq)

/-! One lemma for each turn of the loop. -/

theorem Inv.sendIfReady (h : s.Inv) (hpoint : s.point = .due) (conn : Option Int) :
    (s.resume (.sendIfReady conn)).Inv := by
  have hloop : s.q.loop = .select := h.loop_of_ne (by rw [hpoint]; decide)
  rw [resume, TimedQueue.step, hloop]
  dsimp only
  split
  · exact inv_goOn_beginSend hloop conn
  · rename_i hz
    refine inv_goOn_out h.stopped (by rw [hloop]; rfl) ?_
    exact .inr (.inl (Nat.eq_zero_of_not_pos hz))

theorem Inv.rebroadcast (h : s.Inv) (hpoint : s.point = .select) (ob op : RangeOrder)
    (conn : Option Int) : (s.resume (.rebroadcast ob op conn)).Inv := by
  have hloop : s.q.loop = .select := h.loop_of_ne (by rw [hpoint]; decide)
  rw [resume, TimedQueue.step, hloop]
  dsimp only
  split
  · exact h.goOn_self (.inr hpoint)
  · exact inv_goOn_beginSend rfl conn

theorem Inv.handle (h : s.Inv) (hpoint : s.point = .select) : (s.resume .handle).Inv := by
  have hloop : s.q.loop = .select := h.loop_of_ne (by rw [hpoint]; decide)
  rw [resume, TimedQueue.step, hloop]
  split
  · exact h.goOn_respond (.inl hpoint) (by rw [hloop]; rfl) rfl (by simp) rfl (.refl _)
  · exact h.goOn_self (.inr hpoint)

theorem Inv.exit (h : s.Inv) (hpoint : s.point = .select) : (s.resume .exit).Inv := by
  have hloop : s.q.loop = .select := h.loop_of_ne (by rw [hpoint]; decide)
  rw [resume, TimedQueue.step, hloop]
  dsimp only
  split
  · rename_i hdone
    exact inv_goOn_out (fun _ => hdone) rfl (.inl hdone)
  · exact h.goOn_self (.inr hpoint)

theorem Inv.snapshot (h : s.Inv) (hpoint : s.point = .calling) (o : Orders) (sup : Bool) :
    (s.resume (.snapshot o sup)).Inv := by
  rw [resume, TimedQueue.step]
  split
  · refine inv_goOn_send rfl fun sup' snap hb => ?_
    cases hb
    exact holds_snapshot s.q.mq o sup
  · exact h.goOn_self (.inl hpoint)

/-- The one turn that can leave work behind: the message comes out empty. -/
theorem Inv.finish (h : s.Inv) (hpoint : s.point = .calling) (hok : s.NoneLeft (.queue .finish)) :
    (s.resume .finish).Inv := by
  rw [resume, TimedQueue.step]
  split
  · rename_i sup snap hbuild
    dsimp only
    split
    · rename_i hempty
      refine inv_goOn_out (fun hs => by cases hs) rfl ?_
      by_cases hcut : (buildMessage s.q.mq.maxMessageSize s.q.mq.msg sup snap).CutShort snap
      · exact (hok sup snap hbuild hcut hempty).imp_right (Or.imp_right .inl)
      · exact (h.copied sup snap hbuild).elim (fun hw => .inr (.inr (.inl hw))) fun hs =>
          .inr (.inl (pendingWorkCount_finish hs hcut))
    · exact inv_goOn_send rfl fun sup' snap' hb => by cases hb
  · exact h.goOn_self (.inl hpoint)

theorem Inv.sendMsg (h : s.Inv) (hpoint : s.point = .calling) (ok : Bool) :
    (s.resume (.sendMsg ok)).Inv := by
  rw [resume, TimedQueue.step]
  split
  · split
    · exact inv_goOn_send rfl fun sup snap hb => by cases hb
    · exact inv_goOn_out (fun _ => rfl) rfl (.inl rfl)
  · exact h.goOn_self (.inl hpoint)

theorem Inv.onSent (h : s.Inv) (hpoint : s.point = .calling) : (s.resume .onSent).Inv := by
  rw [resume, TimedQueue.step]
  split
  · exact inv_goOn_send rfl fun sup snap hb => by cases hb
  · exact h.goOn_self (.inl hpoint)

theorem Inv.simulate (h : s.Inv) (hpoint : s.point = .calling) (o : RangeOrder) :
    (s.resume (.simulate o)).Inv := by
  rw [resume, TimedQueue.step]
  split
  · exact inv_goOn_send rfl fun sup snap hb => by cases hb
  · exact h.goOn_self (.inl hpoint)

/-- The loop looks again at the work when the send is over. -/
theorem Inv.addPending (h : s.Inv) (hpoint : s.point = .calling) : (s.resume .addPending).Inv := by
  rw [resume, TimedQueue.step]
  split
  · split
    · exact inv_goOn_out (fun hs => by cases hs) rfl (.inr (.inr (.inr (.inr (.inl rfl)))))
    · exact inv_goOn_send rfl fun sup snap hb => by cases hb
  · exact h.goOn_self (.inl hpoint)

theorem Inv.enqueue (h : s.Inv) (hpoint : s.point = .calling) : (s.resume .enqueue).Inv := by
  rw [resume, TimedQueue.step]
  split
  · exact inv_goOn_out (fun hs => by cases hs) rfl (.inr (.inr (.inr (.inr (.inl rfl)))))
  · exact h.goOn_self (.inl hpoint)

theorem Inv.record (h : s.Inv) (hpoint : s.point = .calling) : (s.resume .record).Inv := by
  rw [resume, TimedQueue.step]
  split
  · rename_i ks now hloop
    have hwork := workWithin_handleResponse s.q.mq s.q.maxValidLatency now ks
    dsimp only
    split
    · exact h.goOn_respond (.inr hpoint) (by rw [hloop]; rfl) rfl (by simp) rfl hwork
    · exact h.goOn_respond (.inr hpoint) (by rw [hloop]; rfl) rfl (by simp) rfl hwork
  · exact h.goOn_self (.inl hpoint)

theorem Inv.updateLatency (h : s.Inv) (hpoint : s.point = .calling) :
    (s.resume .updateLatency).Inv := by
  rw [resume, TimedQueue.step]
  split
  · rename_i elapsed hloop
    exact h.goOn_respond (.inr hpoint) (by rw [hloop]; rfl) rfl
      (by simp [TimedQueue.advance]) rfl (.refl _)
  · exact h.goOn_self (.inl hpoint)

theorem inv_resume (h : s.Inv) (hturn : turn a = some s.point)
    (hok : s.NoneLeft (.queue a)) : (s.resume a).Inv := by
  cases a with
  | sendIfReady conn => exact h.sendIfReady (Option.some.inj hturn).symm conn
  | rebroadcast ob op conn => exact h.rebroadcast (Option.some.inj hturn).symm ob op conn
  | handle => exact h.handle (Option.some.inj hturn).symm
  | exit => exact h.exit (Option.some.inj hturn).symm
  | snapshot o sup => exact h.snapshot (Option.some.inj hturn).symm o sup
  | finish => exact h.finish (Option.some.inj hturn).symm hok
  | sendMsg ok => exact h.sendMsg (Option.some.inj hturn).symm ok
  | onSent => exact h.onSent (Option.some.inj hturn).symm
  | simulate o => exact h.simulate (Option.some.inj hturn).symm o
  | addPending => exact h.addPending (Option.some.inj hturn).symm
  | enqueue => exact h.enqueue (Option.some.inj hturn).symm
  | record => exact h.record (Option.some.inj hturn).symm
  | updateLatency => exact h.updateLatency (Option.some.inj hturn).symm
  | _ => cases hturn

/-- A step of the loop at its own points, between which the queue is at rest. -/
theorem Inv.of_rest (h : s.Inv) (hpoint : s.point ≠ .calling) (hpoint' : s'.point ≠ .calling)
    (hq : s'.q = s.q) (hcovered : s'.Covered) : s'.Inv := by
  have hloop : s'.q.loop = .select := by
    rw [hq]
    exact h.loop_of_ne hpoint
  refine ⟨⟨fun hp => absurd hp hpoint', fun hne => absurd hloop hne⟩, fun hs => ?_, ?_, hcovered⟩
  · rw [hloop] at hs
    cases hs
  · intro sup snap hb
    rw [hloop] at hb
    cases hb

/-- A step between two points at which the loop is not about to look at the work. -/
theorem Inv.moved (h : s.Inv)
    (hpoint : s.point ≠ .calling ∧ s.point ≠ .due ∧ s.point ≠ .rechecking)
    (hpoint' : s'.point ≠ .calling) (hq : s'.q = s.q) (hwoken : s.Woken → s'.Woken) :
    s'.Inv := by
  refine h.of_rest hpoint.1 hpoint' hq ?_
  rw [Covered, hq]
  rcases h.covered with hd | hz | hw | hp | hp | hp
  · exact .inl hd
  · exact .inr (.inl hz)
  · exact .inr (.inr (.inl (hwoken hw)))
  · exact absurd hp hpoint.2.1
  · exact absurd hp hpoint.2.2
  · rw [h.loop_of_ne hpoint.1] at hp
    cases hp

theorem inv_queue (h : s.Inv) {a : TimedQueue.Act} (hok : s.NoneLeft (.queue a)) :
    (s.step (.queue a)).Inv := by
  rw [step]
  split
  · rename_i hturn
    exact inv_call h hturn
  · rename_i point hturn
    split
    · rename_i hpoint
      exact inv_resume h (hpoint ▸ hturn) hok
    · exact h

theorem Inv.stop (h : s.Inv) : (s.step .stop).Inv := by
  unfold step
  dsimp only
  split
  · rename_i hpoint
    refine h.moved (by simp [hpoint]) ?_ rfl id
    dsimp only
    split <;> decide
  · exact h

theorem Inv.drain (h : s.Inv) : (s.step .drain).Inv := by
  unfold step
  dsimp only
  split
  · rename_i inLoop _ hpoint _
    refine h.moved (by simp [hpoint]) ?_ rfl id
    dsimp only
    split <;> decide
  · exact h

theorem Inv.receiveWork (h : s.Inv) : (s.step .receiveWork).Inv := by
  unfold step
  dsimp only
  split
  · rename_i time hpoint _
    split
    · exact h.of_rest (by rw [hpoint]; decide) (fun hp => by cases hp) rfl
        (.inr (.inr (.inl (.inr (.inr rfl)))))
    · rename_i hwork
      refine h.of_rest (by rw [hpoint]; decide) ?_ rfl (.inr (.inr (.inl (.inr (.inr ?_)))))
      · dsimp only
        split <;> decide
      · dsimp only
        rw [hwork]
        rfl
  · exact h

theorem Inv.decide (h : s.Inv) : (s.step .decide).Inv := by
  unfold step
  dsimp only
  split
  · rename_i hpoint
    split
    · exact h.of_rest (by rw [hpoint]; decide) (fun hp => by cases hp) rfl
        (.inr (.inr (.inr (.inl rfl))))
    · exact h.moved (by simp [hpoint]) (fun hp => by cases hp) rfl id
  · exact h

theorem Inv.recheck (h : s.Inv) : (s.step .recheck).Inv := by
  unfold step
  dsimp only
  split
  · rename_i hpoint
    split
    · exact h.of_rest (by rw [hpoint]; decide) (fun hp => by cases hp) rfl
        (.inr (.inr (.inl (woken_signalWorkReady _))))
    · rename_i hz
      exact h.of_rest (by rw [hpoint]; decide) (fun hp => by cases hp) rfl
        (.inr (.inl (Nat.eq_zero_of_not_pos hz)))
  · exact h

theorem inv_step (s : RunLoop) (a : Act) (h : s.Inv) (hok : s.NoneLeft a) : (s.step a).Inv := by
  cases a with
  | queue a => exact inv_queue h hok
  | stop => exact h.stop
  | drain => exact h.drain
  | receiveWork => exact h.receiveWork
  | decide => exact h.decide
  | receiveTimer =>
      rw [step]
      split
      · rename_i d hpoint _
        exact h.of_rest (by rw [hpoint]; decide) (fun hp => by cases hp) rfl
          (.inr (.inr (.inr (.inl rfl))))
      · exact h
  | recheck => exact h.recheck
  | signal =>
      rw [step]
      split
      · exact h.of_woken rfl rfl rfl (woken_signalWorkReady _)
      · exact h
  | fire => exact h.of_within rfl rfl id id (.refl _)

/-- A message that was cut short and comes out empty with work left leaves it uncovered. -/
theorem not_covered_of_left (h : s.Inv) {a : Act} (hnot : ¬ s.NoneLeft a) :
    ¬ (s.step a).Covered := by
  cases a with
  | queue a =>
      cases a with
      | finish =>
          simp only [NoneLeft, not_forall, not_or] at hnot
          obtain ⟨sup, snap, hbuild, -, hempty, hdone, hwork, hwoken⟩ := hnot
          have hpoint : s.point = .calling := h.placed.mpr (by simp [hbuild])
          have hstep : s.step (.queue .finish) = s.goOn .select
              { s.q with mq := (s.q.mq.finish
                (buildMessage s.q.mq.maxMessageSize s.q.mq.msg sup snap)).1 }.endSend := by
            show (if s.point = .calling then s.resume .finish else s) = _
            rw [if_pos hpoint, resume, TimedQueue.step, hbuild]
            dsimp only
            rw [if_pos hempty]
            rfl
          rw [hstep, goOn_of_eq rfl]
          rintro (hd | hz | hw | hp | hp | hp)
          · exact hdone hd
          · exact hwork hz
          · exact hwoken hw
          · cases hp
          · cases hp
          · cases hp
      | _ => exact absurd trivial hnot
  | _ => exact absurd trivial hnot

end

/-- **Lost wake-ups.**  Pending work always has something that will make the loop look at
it, just when every message that is cut short and comes out empty leaves none, or is
followed by another signal. -/
theorem always_covered_iff (maxMsgSize : Nat) (maxValidLatency : Int) (p : TimeoutParams)
    (acts : List Act) :
    Always step Covered (init maxMsgSize maxValidLatency p) acts ↔
      Meets step NoneLeft (init maxMsgSize maxValidLatency p) acts := by
  have hzero : (MessageQueue.new maxMsgSize).pendingWorkCount = 0 := rfl
  refine always_iff_meets (fun _ h => h.covered) inv_step (fun _ _ h => not_covered_of_left h)
    acts ⟨?_, fun hs => ?_, fun sup snap hb => ?_, .inr (.inl hzero)⟩
  · exact ⟨fun hp => (by cases hp), fun hne => absurd rfl hne⟩
  · cases hs
  · cases hb

/-- The loop comes to send two wants, of which one fills the message; while the message is
built, that one is cancelled. -/
def strandingRun : List Act :=
  let w : Want := ⟨⟨[1]⟩, []⟩
  let w' : Want := ⟨⟨List.replicate 220 2⟩, []⟩
  [.stop, .queue (.addWants [w, w'] []), .receiveWork, .decide,
    .queue (.timeouts (.tick millisecond)), .fire, .receiveTimer, .queue (.sendIfReady (some 0)),
    .queue (.snapshot ⟨.stored, .stored, .stored⟩ true), .queue (.addCancels [w']),
    .queue (.removeCancelled 0), .queue .finish]

example : (run step (init 220 0 .default) strandingRun).q.mq.pendingWorkCount = 1 ∧
    ¬ (run step (init 220 0 .default) strandingRun).Covered := by decide +kernel

end RunLoop

end BitswapAuth
