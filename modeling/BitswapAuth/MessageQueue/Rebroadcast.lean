/-
# `BitswapAuth.MessageQueue.Rebroadcast` — sending the outstanding wants again

From time to time the queue copies its sent wants back into the pending lists
(`transferRebroadcastWants`) and sends them once more.  Copying is `Absorb`, which is a map of
its own at every want (`lookup_absorb`), so that the order it goes through the other list in
does not matter and doing it twice does no more than doing it once.

With nothing else pending a pending want is then the sent want, entry for entry
(`Repeating`).  Marking it as sent puts it where it is already, and the sent lists stay as
they are through all the messages it takes.
-/
import BitswapAuth.MessageQueue.Drain

namespace BitswapAuth

open Lib

/-! ## Absorbing a wantlist -/

namespace Wantlist

variable {w other : Wantlist} {o : RangeOrder} {k : Want}

theorem merged_self (e : Entry) : merged (some e) e = e := ite_self e

theorem merged_idem (old : Option Entry) (e : Entry) :
    merged (some (merged old e)) e = merged old e := by
  cases old with
  | none => exact merged_self e
  | some e' =>
      by_cases h : e'.wantType = .wantBlock ∨ e.wantType = .wantHave
      · have hold : merged (some e') e = e' := if_pos h
        rw [hold, hold]
      · have hnew : merged (some e') e = e := if_neg h
        rw [hnew, merged_self]

/-- A want-block takes the place of what was there, unless that is a want-block. -/
theorem wantType_merged_block (old : Option Entry) {e : Entry} (h : e.wantType = .wantBlock) :
    (merged old e).wantType = .wantBlock := by
  cases old with
  | none => exact h
  | some e' =>
      rw [merged]
      split
      · rename_i hor
        refine hor.resolve_right fun hh => ?_
        rw [h] at hh
        cases hh
      · exact h

/-- What absorbing leaves under a want. -/
theorem lookup_absorb : (w.absorb o other).set.lookup k =
    (other.set.lookup k).elim (w.set.lookup k) fun e => some (merged (w.set.lookup k) e) := by
  have helse : ∀ (w : Wantlist) (e : Entry), e.want ≠ k →
      (w.add e.want e.priority e.wantType).1.set.lookup k = w.set.lookup k :=
    fun w e hne => lookup_add.trans (if_neg (Ne.symm hne))
  cases hk : other.set.lookup k with
  | none =>
      refine foldl_elsewhere (fun w : Wantlist => w.set.lookup k) Entry.want helse _ w fun hin => ?_
      obtain ⟨e, he, rfl⟩ := List.mem_map.mp hin
      rw [mem_entries.mp he] at hk
      cases hk
  | some e =>
      have hkey := other.keyed k e hk
      subst hkey
      obtain ⟨w', hw', heq⟩ := foldl_own (fun w : Wantlist => w.set.lookup e.want) Entry.want
        nodup_entries (mem_entries (o := o).mpr hk) helse w
      refine heq.trans ?_
      rw [lookup_add, if_pos rfl, hw']
      rfl

/-- The laws of absorbing one list into another. -/
structure Absorbs (w other : Wantlist) : Prop where
  order : ∀ (o o' : RangeOrder) k,
    (w.absorb o other).set.lookup k = (w.absorb o' other).set.lookup k
  again : ∀ (o o' : RangeOrder) k,
    ((w.absorb o other).absorb o' other).set.lookup k = (w.absorb o other).set.lookup k
  block : ∀ (o : RangeOrder) k, w.HoldsBlock k ∨ other.HoldsBlock k →
    (w.absorb o other).HoldsBlock k

theorem absorbs (w other : Wantlist) : Absorbs w other := by
  refine ⟨fun o o' k => ?_, fun o o' k => ?_, fun o k h => ?_⟩
  · rw [lookup_absorb, lookup_absorb]
  · rw [lookup_absorb, lookup_absorb]
    cases other.set.lookup k with
    | none => rfl
    | some e => exact congrArg some (merged_idem _ e)
  · rw [HoldsBlock, lookup_absorb]
    cases hk : other.set.lookup k with
    | none =>
        refine h.resolve_right ?_
        rintro ⟨e, he, -⟩
        rw [hk] at he
        cases he
    | some e =>
        refine ⟨_, rfl, ?_⟩
        rcases h with ⟨e', he', ht⟩ | ⟨e', he', ht⟩
        · rw [he', show merged (some e') e = e' from if_pos (.inl ht)]
          exact ht
        · obtain rfl : e = e' := Option.some.inj (hk.symm.trans he')
          exact wantType_merged_block _ ht

end Wantlist

/-! ## Marking as sent what is sent -/

namespace RecallWantlist

/-- Every pending want is recorded as sent, with the same entry. -/
def Repeating (r : RecallWantlist) : Prop :=
  ∀ w e, r.pending.set.lookup w = some e → r.sent.set.lookup w = some e

end RecallWantlist

namespace MessageQueue

/-- Marking as sent what is already there changes the pending list only. -/
theorem repeating_foldl_finishEntry {es : List Wantlist.Entry} {r : RecallWantlist}
    (hnd : (es.map (·.want)).Nodup) (hes : ∀ e ∈ es, r.pending.set.lookup e.want = some e)
    (hrep : r.Repeating) (m : Message) :
    (∀ w, (es.foldl finishEntry (r, m)).1.sent.set.lookup w = r.sent.set.lookup w) ∧
      (es.foldl finishEntry (r, m)).1.Repeating := by
  obtain ⟨hother, hown⟩ := seen_foldl_finishEntry hnd hes m
  have hsent : ∀ w, (es.foldl finishEntry (r, m)).1.sent.set.lookup w = r.sent.set.lookup w := by
    intro w
    by_cases hw : w ∈ es.map (·.want)
    · obtain ⟨e, he, rfl⟩ := List.mem_map.mp hw
      refine (congrArg Prod.snd (hown e he)).trans ?_
      rw [hrep e.want e (hes e he), Wantlist.merged_self]
    · exact congrArg Prod.snd (hother w hw)
  refine ⟨hsent, fun w e he => ?_⟩
  rw [lookup_pending_foldl_finishEntry hnd hes] at he
  rw [hsent]
  split at he
  · cases he
  · exact hrep w e he

section

variable {mq : MessageQueue}

/-- One message of a rebroadcast. -/
theorem repeating_extract (h : mq.Steady) (ht : mq.Typed) (o : Orders)
    (hp : mq.peerWants.Repeating) (hb : mq.bcstWants.Repeating) :
    ((∀ w, (mq.extract o true).1.peerWants.sent.set.lookup w = mq.peerWants.sent.set.lookup w) ∧
        (mq.extract o true).1.peerWants.Repeating) ∧
      (∀ w, (mq.extract o true).1.bcstWants.sent.set.lookup w = mq.bcstWants.sent.set.lookup w) ∧
        (mq.extract o true).1.bcstWants.Repeating := by
  have hd := drawn_extract h ht o true
  have hprep : Prepared (mq.filled o true) := prepared_reopened h o true []
  exact ⟨repeating_foldl_finishEntry hprep.peer hd.peer hp _,
    repeating_foldl_finishEntry hprep.bcst hd.bcst hb _⟩

theorem sent_drain : ∀ (os : List Orders) (mq : MessageQueue), mq.Steady → mq.Typed →
    mq.peerWants.Repeating → mq.bcstWants.Repeating →
      (∀ w, (drain true os mq).1.peerWants.sent.set.lookup w = mq.peerWants.sent.set.lookup w) ∧
        ∀ w, (drain true os mq).1.bcstWants.sent.set.lookup w = mq.bcstWants.sent.set.lookup w
  | [], _, _, _, _, _ => ⟨fun _ => rfl, fun _ => rfl⟩
  | o :: os, mq, h, ht, hp, hb => by
      rw [drain]
      split
      · exact ⟨fun _ => rfl, fun _ => rfl⟩
      · obtain ⟨⟨hps, hp'⟩, hbs, hb'⟩ := repeating_extract h ht o hp hb
        obtain ⟨ihp, ihb⟩ := sent_drain os (mq.extract o true).1
          (steady_step mq (.extract o true []) h) (typed_step mq (.extract o true []) ht) hp' hb'
        exact ⟨fun w => (ihp w).trans (hps w), fun w => (ihb w).trans (hbs w)⟩

/-! ## The rebroadcast -/

/-- With nothing pending, what is copied back is what was sent. -/
theorem lookup_transferRebroadcastWants (hz : mq.pendingWorkCount = 0) (ob op : RangeOrder) :
    (∀ w, (mq.transferRebroadcastWants ob op).peerWants.pending.set.lookup w =
        mq.peerWants.sent.set.lookup w) ∧
      ∀ w, (mq.transferRebroadcastWants ob op).bcstWants.pending.set.lookup w =
        mq.bcstWants.sent.set.lookup w := by
  obtain ⟨hb, hp, -⟩ := pendingWorkCount_eq_zero.mp hz
  have hnone : ∀ {l : Wantlist}, (∀ w, w ∉ l) → ∀ w, l.set.lookup w = none :=
    fun hl w => AList.lookup_eq_none.mpr (hl w)
  have habsorb : ∀ {l l' : Wantlist} {o : RangeOrder}, (∀ w, w ∉ l) →
      ∀ w, (l.absorb o l').set.lookup w = l'.set.lookup w := by
    intro l l' o hl w
    rw [Wantlist.lookup_absorb, hnone hl]
    cases l'.set.lookup w <;> rfl
  rw [transferRebroadcastWants]
  split
  · rename_i hlen
    have hbs : ∀ w, w ∉ mq.bcstWants.sent := GoMap.len_eq_zero.mp hlen.1
    have hps : ∀ w, w ∉ mq.peerWants.sent := GoMap.len_eq_zero.mp hlen.2
    exact ⟨fun w => (hnone hp w).trans (hnone hps w).symm,
      fun w => (hnone hb w).trans (hnone hbs w).symm⟩
  · exact ⟨habsorb hp, habsorb hb⟩

theorem sent_transferRebroadcastWants (mq : MessageQueue) (ob op : RangeOrder) :
    (mq.transferRebroadcastWants ob op).peerWants.sent = mq.peerWants.sent ∧
      (mq.transferRebroadcastWants ob op).bcstWants.sent = mq.bcstWants.sent ∧
        (mq.transferRebroadcastWants ob op).cancels = mq.cancels := by
  rw [transferRebroadcastWants]
  split <;> exact ⟨rfl, rfl, rfl⟩

end

/-- Messages that repeat what was sent: each want that was, as a want-block just if it was a
targeted one, and nothing else. -/
structure Repeats (mq : MessageQueue) (ms : List Message) : Prop where
  wants : ∀ w, (∃ m ∈ ms, w ∈ m.wantlist) ↔ w ∈ mq.peerWants.sent ∨ w ∈ mq.bcstWants.sent
  blocks : ∀ w, (∃ m ∈ ms, m.HoldsBlock w) ↔ mq.peerWants.sent.HoldsBlock w
  noCancel : ∀ m ∈ ms, ∀ w, m.flag w ≠ some true

/-- The same wants are recorded as sent, with the same types and priorities. -/
structure SameSent (mq mq' : MessageQueue) : Prop where
  peer : ∀ w, mq'.peerWants.sent.set.lookup w = mq.peerWants.sent.set.lookup w
  bcst : ∀ w, mq'.bcstWants.sent.set.lookup w = mq.bcstWants.sent.set.lookup w

/-- What empties a queue whose pending wants are those that were sent repeats them. -/
theorem Drained.repeats {mq mq' : MessageQueue} {ms : List (Built × Message)}
    (h : Drained mq' true ms) (hc : ∀ w, w ∉ mq'.cancels)
    (hp : ∀ w, mq'.peerWants.pending.set.lookup w = mq.peerWants.sent.set.lookup w)
    (hb : ∀ w, mq'.bcstWants.pending.set.lookup w = mq.bcstWants.sent.set.lookup w) :
    Repeats mq (ms.map Prod.snd) := by
  have hno : ∀ m ∈ ms, ∀ w, m.2.flag w ≠ some true := by
    intro m hm w htrue
    have hcount := h.cancels w
    rw [if_neg (hc w), List.countP_eq_zero] at hcount
    exact hcount m hm (decide_eq_true htrue)
  have hflag : ∀ m ∈ ms, ∀ w, w ∈ m.2.wantlist → m.2.flag w = some false :=
    fun m hm w hw => (Message.mem_wantlist_iff_flag.mp hw).resolve_right (hno m hm w)
  have hbcst : ∀ w, w ∈ mq'.bcstWants.pending ↔ w ∈ mq.bcstWants.sent := fun w => by
    rw [Wantlist.mem_iff, Wantlist.mem_iff, hb]
  refine ⟨fun w => ⟨?_, ?_⟩, fun w => ⟨?_, ?_⟩, ?_⟩
  · rintro ⟨m, hm, hw⟩
    obtain ⟨m, hms, rfl⟩ := List.mem_map.mp hm
    rcases h.only m hms w (hflag m hms w hw) with ⟨e, he, -, -⟩ | ⟨hw, -⟩
    · exact .inl (Wantlist.mem_iff.mpr ⟨e, (hp w).symm.trans he⟩)
    · exact .inr ((hbcst w).mp hw)
  · rintro (hw | hw)
    · obtain ⟨e, he⟩ := Wantlist.mem_iff.mp hw
      obtain ⟨m, hm, hask, -⟩ := h.peer w e ((hp w).trans he) (by simp)
      exact ⟨m.2, List.mem_map_of_mem hm, Message.mem_wantlist_iff_flag.mpr (.inl hask)⟩
    · obtain ⟨m, hm, hask, -⟩ := h.bcst w ((hbcst w).mpr hw)
      exact ⟨m.2, List.mem_map_of_mem hm, Message.mem_wantlist_iff_flag.mpr (.inl hask)⟩
  · rintro ⟨m, hm, hblock⟩
    obtain ⟨m, hms, rfl⟩ := List.mem_map.mp hm
    have hty := Message.holdsBlock_iff_typeOf.mp hblock
    obtain ⟨x, hx, -⟩ := hblock
    rcases h.only m hms w (hflag m hms w (GoMap.mem_of_lookup hx)) with ⟨e, he, -, hte⟩ | ⟨-, hte⟩
    · exact ⟨e, (hp w).symm.trans he, Option.some.inj (hte.symm.trans hty)⟩
    · rw [hty] at hte
      cases hte
  · rintro ⟨e, he, ht⟩
    obtain ⟨m, hm, -, hty⟩ := h.peer w e ((hp w).trans he) (by simp)
    exact ⟨m.2, List.mem_map_of_mem hm, Message.holdsBlock_iff_typeOf.mpr (by rw [hty, ht])⟩
  · intro m hm w
    obtain ⟨m, hms, rfl⟩ := List.mem_map.mp hm
    exact hno m hms w

/-- **A rebroadcast repeats exactly the outstanding wants.**  In any state a queue reaches
with no work pending, and for a peer that knows HAVE: once the sent wants are copied back
and the queue is emptied, with messages of any maximum size, each outstanding want has been
asked for again, as a want-block just if it is recorded as a targeted want-block, nothing
else has been asked for or cancelled, and the sent lists are as they were.  Absorbing does
not depend on the order, is the same when done twice, and keeps want-blocks. -/
theorem rebroadcast_repeats (n : Nat) (steps : List Step) (ob op : RangeOrder) (os : List Orders) :
    let mq := run step (new n) steps
    let mq' := mq.transferRebroadcastWants ob op
    mq.pendingWorkCount = 0 → mq'.pendingWorkCount ≤ os.length →
      (drain true os mq').1.pendingWorkCount = 0 ∧
      Repeats mq ((drain true os mq').2.map Prod.snd) ∧
      SameSent mq (drain true os mq').1 ∧
      ∀ w other, Wantlist.Absorbs w other := by
  intro mq mq' hz hlen
  have hst : mq'.Steady := steady_step mq (.rebroadcast ob op) (steady_reached n steps)
  have hty : mq'.Typed := typed_step mq (.rebroadcast ob op) (typed_reached n steps)
  obtain ⟨hp, hb⟩ := lookup_transferRebroadcastWants hz ob op
  obtain ⟨hps, hbs, hcs⟩ := sent_transferRebroadcastWants mq ob op
  obtain ⟨-, -, hc⟩ := pendingWorkCount_eq_zero.mp hz
  obtain ⟨hdone, hdrained⟩ := drain_spec true os mq' hst hty hlen
  have hprep : mq'.peerWants.Repeating := fun w e he => by
    rw [hps]
    exact (hp w).symm.trans he
  have hbrep : mq'.bcstWants.Repeating := fun w e he => by
    rw [hbs]
    exact (hb w).symm.trans he
  obtain ⟨hpsent, hbsent⟩ := sent_drain os mq' hst hty hprep hbrep
  refine ⟨hdone, hdrained.repeats (fun w => hcs ▸ hc w) hp hb, ⟨fun w => ?_, fun w => ?_⟩,
    Wantlist.absorbs⟩
  · rw [hpsent, hps]
  · rw [hbsent, hbs]

/-- A targeted want-block that is also broadcast is sent again, in two messages. -/
theorem rebroadcast_repeats_twice_asked :
    let w : Want := ⟨⟨[1]⟩, []⟩
    let o : Orders := ⟨.stored, .stored, .stored⟩
    let mq := run step (new 1) [.add (.addWants [w] []), .add (.addBroadcastWantHaves [w]),
      .extract o true [], .extract o true []]
    let r := drain true [o, o] (mq.transferRebroadcastWants .stored .stored)
    mq.pendingWorkCount = 0 ∧ r.2.length = 2 ∧ r.1.pendingWorkCount = 0 ∧
      Repeats mq (r.2.map Prod.snd) ∧ SameSent mq r.1 ∧ ∀ w other, Wantlist.Absorbs w other := by
  intro w o mq r
  have hz : mq.pendingWorkCount = 0 := by decide +kernel
  have hlen : (mq.transferRebroadcastWants .stored .stored).pendingWorkCount ≤ [o, o].length := by
    decide +kernel
  have htwo : r.2.length = 2 := by decide +kernel
  exact ⟨hz, htwo, rebroadcast_repeats 1 [.add (.addWants [w] []),
    .add (.addBroadcastWantHaves [w]), .extract o true [], .extract o true []] .stored .stored
    [o, o] hz hlen⟩

end MessageQueue

end BitswapAuth
