/-
# `BitswapAuth.Message.Merge` — several calls for one want

`addEntry` keeps one entry for a want.  A call that finds one merges into it, by a rule of its own
for each of the four fields:

    Cancel         set by a cancel, never cleared
    SendDontHave   set by a call that asks for it, never cleared
    WantType       from want-have to want-block, never back
    Priority       replaced by a call of the type that the entry has *before* the call

The first three only grow, so they do not depend on the order of the calls.  The priority does: it
is that of the last call that found an entry of its own type.

The queue counts the sizes that the calls return.  A call that finds an entry returns nothing,
also when the entry gets longer.
-/
import BitswapAuth.Message.Wire
import Mathlib.Algebra.GroupWithZero.Nat
import Mathlib.Data.List.Induction

namespace BitswapAuth

open Lib

namespace Message

/-- The two calls that add an entry. -/
inductive EntryCall where
  | addEntry (w : Want) (priority : Int32) (wantType : WantType) (sendDontHave : Bool)
  | cancel (w : Want)

namespace EntryCall

/-- The message after the call, and the size it returns. -/
def make (m : Message) : EntryCall → Message × Nat
  | .addEntry w p t d => m.addEntry w p t d
  | .cancel w => m.cancel w

/-- The entry that the call adds to a message that has none for the want. -/
def entry : EntryCall → Entry
  | .addEntry w p t d => ⟨w, p, t, false, d⟩
  | .cancel w => ⟨w, 0, .wantBlock, true, false⟩

/-- The want that the call names. -/
def want (c : EntryCall) : Want := c.entry.want

/-- The call is of one of the two types. -/
def Known (c : EntryCall) : Prop := c.entry.wantType = .wantBlock ∨ c.entry.wantType = .wantHave

instance (c : EntryCall) : Decidable c.Known := inferInstanceAs (Decidable (_ ∨ _))

theorem make_eq (m : Message) (c : EntryCall) : c.make m =
    m.addEntry' c.want c.entry.priority c.entry.cancel c.entry.wantType c.entry.sendDontHave := by
  cases c <;> rfl

theorem lookup_make {m : Message} {c : EntryCall} {w : Want} :
    (c.make m).1.wantlist.lookup w =
      if w = c.want then some (Entry.over (m.wantlist.lookup c.want) c.entry)
      else m.wantlist.lookup w := by
  rw [make_eq, lookup_addEntry']
  rfl

theorem make_snd {m : Message} {c : EntryCall} :
    (c.make m).2 = if c.want ∈ m.wantlist then 0 else c.entry.size := by
  rw [make_eq, addEntry'_snd]
  rfl

end EntryCall

/-- The message after some calls. -/
def called (m : Message) (calls : List EntryCall) : Message := run (fun m c => (c.make m).1) m calls

theorem called_append_singleton (m : Message) (calls : List EntryCall) (c : EntryCall) :
    m.called (calls ++ [c]) = (c.make (m.called calls)).1 :=
  run_append m calls [c]

/-- The call finds an entry of its own type. -/
def Renews (m : Message) (c : EntryCall) : Prop :=
  ∃ e, m.wantlist.lookup c.want = some e ∧ e.wantType = c.entry.wantType

/-! ## What the entry of a want is -/

section

variable {m : Message} {calls : List EntryCall} {c : EntryCall} {w : Want} {e : Entry}

/-- Some call for the want is as said. -/
def SomeCall (calls : List EntryCall) (w : Want) (P : EntryCall → Prop) : Prop :=
  ∃ c ∈ calls, c.want = w ∧ P c

/-- The last call for the want that found an entry of its own type, or else the first call for
the want, has the priority. -/
def LastRenewal (m : Message) (calls : List EntryCall) (w : Want) (priority : Int32) : Prop :=
  ∃ pre c post, calls = pre ++ c :: post ∧ c.want = w ∧ c.entry.priority = priority ∧
    ((m.called pre).Renews c ∨ ∀ c' ∈ pre, c'.want ≠ w) ∧
    ∀ pre' c' post', post = pre' ++ c' :: post' → c'.want = w →
      ¬ (m.called (pre ++ c :: pre')).Renews c'

/-- The entry of a want after some calls, from the calls for the want. -/
structure MergeOf (m : Message) (calls : List EntryCall) (w : Want) (e : Entry) : Prop where
  cancel : e.cancel = true ↔ SomeCall calls w (·.entry.cancel = true)
  sendDontHave : e.sendDontHave = true ↔ SomeCall calls w (·.entry.sendDontHave = true)
  wantBlock : e.wantType = .wantBlock ↔ SomeCall calls w (·.entry.wantType = .wantBlock)
  known : e.wantType = .wantBlock ∨ e.wantType = .wantHave
  priority : LastRenewal m calls w e.priority

theorem someCall_append_singleton {P : EntryCall → Prop} :
    SomeCall (calls ++ [c]) w P ↔ SomeCall calls w P ∨ (c.want = w ∧ P c) := by
  simp only [SomeCall, List.mem_append, List.mem_singleton, or_and_right, exists_or,
    exists_eq_left]

/-- A call that does not renew the priority is after the one that last did. -/
theorem LastRenewal.append {priority : Int32} (h : LastRenewal m calls w priority)
    (hc : c.want = w → ¬ (m.called calls).Renews c) :
    LastRenewal m (calls ++ [c]) w priority := by
  obtain ⟨pre, c₀, post, rfl, hw, hp, hset, hlast⟩ := h
  refine ⟨pre, c₀, post ++ [c], by simp, hw, hp, hset, fun pre' c' post' heq hw' => ?_⟩
  -- the last call is either the new one or one of the old ones
  rcases List.eq_nil_or_concat post' with rfl | ⟨post'', x, rfl⟩
  · obtain ⟨rfl, rfl⟩ := List.append_singleton_inj.mp heq
    exact hc hw'
  · rw [List.concat_eq_append, ← List.cons_append, ← List.append_assoc] at heq
    obtain ⟨rfl, -⟩ := List.append_singleton_inj.mp heq
    exact hlast pre' c' post'' rfl hw'

/-- The call renews the priority, or adds the entry. -/
theorem lastRenewal_self (hset : (m.called calls).Renews c ∨ ∀ c' ∈ calls, c'.want ≠ c.want) :
    LastRenewal m (calls ++ [c]) c.want c.entry.priority := by
  refine ⟨calls, c, [], rfl, rfl, rfl, hset, fun pre' c' post' heq => ?_⟩
  exact absurd heq.symm (by simp)

theorem mem_called (full : Bool) (calls : List EntryCall) (w : Want) :
    w ∈ ((new full).called calls).wantlist ↔ ∃ c ∈ calls, c.want = w := by
  induction calls using List.reverseRecOn with
  | nil => simp [called, run, new]
  | append_singleton calls c ih =>
      rw [called_append_singleton, EntryCall.make_eq, mem_wantlist_addEntry', ih]
      simp only [List.mem_append, List.mem_singleton, or_and_right, exists_or, exists_eq_left]
      rw [or_comm, eq_comm (a := w)]

theorem mergeOf_first (hno : ∀ c' ∈ calls, c'.want ≠ c.want) (hc : c.Known) :
    MergeOf m (calls ++ [c]) c.want c.entry := by
  have hnone : ∀ P, ¬ SomeCall calls c.want P := by
    rintro P ⟨c', hc', hw, -⟩
    exact hno c' hc' hw
  refine ⟨?_, ?_, ?_, hc, lastRenewal_self (.inr hno)⟩
  · rw [someCall_append_singleton]
    simp [hnone]
  · rw [someCall_append_singleton]
    simp [hnone]
  · rw [someCall_append_singleton]
    simp [hnone]

theorem MergeOf.merge (h : MergeOf m calls c.want e) (hc : c.Known)
    (he : (m.called calls).wantlist.lookup c.want = some e) :
    MergeOf m (calls ++ [c]) c.want (Entry.over (some e) c.entry) := by
  refine ⟨?_, ?_, ?_, ?_, ?_⟩
  · rw [someCall_append_singleton, ← h.cancel]
    cases hcc : c.entry.cancel <;> simp [Entry.over, Entry.merge, hcc]
  · rw [someCall_append_singleton, ← h.sendDontHave]
    cases hcc : c.entry.sendDontHave <;> simp [Entry.over, Entry.merge, hcc]
  · rw [someCall_append_singleton, ← h.wantBlock]
    rcases hc with ht | ht <;> rcases h.known with ht' | ht' <;>
      simp [Entry.over, Entry.merge, ht, ht']
  · rcases hc with ht | ht <;> rcases h.known with ht' | ht' <;>
      simp [Entry.over, Entry.merge, ht, ht']
  · show LastRenewal m _ _ (if e.wantType = c.entry.wantType then _ else _)
    split
    · rename_i ht
      exact lastRenewal_self (.inl ⟨e, he, ht⟩)
    · rename_i ht
      refine h.priority.append fun _ => ?_
      rintro ⟨e', he', ht'⟩
      rw [Option.some.inj (he.symm.trans he')] at ht
      exact ht ht'

theorem MergeOf.other (h : MergeOf m calls w e) (hne : c.want ≠ w) :
    MergeOf m (calls ++ [c]) w e := by
  refine ⟨?_, ?_, ?_, h.known, h.priority.append fun hw => absurd hw hne⟩
  · rw [h.cancel, someCall_append_singleton]
    simp [hne]
  · rw [h.sendDontHave, someCall_append_singleton]
    simp [hne]
  · rw [h.wantBlock, someCall_append_singleton]
    simp [hne]

/-- Every entry is the merge of the calls for its want. -/
theorem mergeOf_called (full : Bool) (calls : List EntryCall) (hcalls : ∀ c ∈ calls, c.Known) :
    ∀ w e, ((new full).called calls).wantlist.lookup w = some e → MergeOf (new full) calls w e := by
  induction calls using List.reverseRecOn with
  | nil =>
      intro w e he
      simp [called, run, new] at he
  | append_singleton calls c ih =>
      intro w e he
      obtain ⟨hcalls, hc⟩ := List.forall_mem_append.mp hcalls
      have hc : c.Known := hc c (List.mem_singleton_self c)
      rw [called_append_singleton, EntryCall.lookup_make] at he
      split at he
      · rename_i hw
        subst hw
        obtain rfl := Option.some.inj he
        cases hold : ((new full).called calls).wantlist.lookup c.want with
        | none =>
            refine mergeOf_first (fun c' hc' hw => ?_) hc
            have hmem := (mem_called full calls c.want).mpr ⟨c', hc', hw⟩
            exact AList.lookup_eq_none.mp hold hmem
        | some e => exact (ih hcalls c.want e hold).merge hc hold
      · rename_i hw
        exact (ih hcalls w e he).other (Ne.symm hw)

end

/-! ## The sizes -/

/-- The sizes that the calls return. -/
def sizes : Message → List EntryCall → List Nat
  | _, [] => []
  | m, c :: calls => (c.make m).2 :: sizes (c.make m).1 calls

/-- The entries as they are first added, to a message that has entries for some wants. -/
def firstAdded : List Want → List EntryCall → List Entry
  | _, [] => []
  | seen, c :: calls =>
      if c.want ∈ seen then firstAdded seen calls else c.entry :: firstAdded (c.want :: seen) calls

theorem sum_sizes (calls : List EntryCall) : ∀ (m : Message) (seen : List Want),
    (∀ w, w ∈ seen ↔ w ∈ m.wantlist) →
      (m.sizes calls).sum = ((firstAdded seen calls).map Entry.size).sum := by
  induction calls with
  | nil => intros; rfl
  | cons c calls ih =>
      intro m seen hseen
      have hmem : ∀ w, w ∈ (c.make m).1.wantlist ↔ w = c.want ∨ w ∈ m.wantlist := by
        intro w
        rw [EntryCall.make_eq, mem_wantlist_addEntry']
      rw [sizes, List.sum_cons, EntryCall.make_snd, firstAdded]
      by_cases hc : c.want ∈ m.wantlist
      · rw [if_pos hc, if_pos ((hseen _).mpr hc), Nat.zero_add]
        refine ih _ seen fun w => ?_
        rw [hmem, hseen]
        exact ⟨.inr, fun h => h.elim (fun h => h ▸ hc) id⟩
      · rw [if_neg hc, if_neg fun h => hc ((hseen _).mp h)]
        rw [List.map_cons, List.sum_cons]
        refine congrArg (c.entry.size + ·) (ih _ (c.want :: seen) fun w => ?_)
        rw [hmem, List.mem_cons, hseen]

/-! ## The calls in any order -/

/-- What the entry of a want says, but for the priority. -/
def strength (m : Message) (w : Want) : Option (Bool × Bool × WantType) :=
  (m.wantlist.lookup w).map fun e => (e.cancel, e.sendDontHave, e.wantType)

theorem SomeCall.perm {calls calls' : List EntryCall} (h : calls'.Perm calls) {w : Want}
    {P : EntryCall → Prop} : SomeCall calls' w P ↔ SomeCall calls w P := by
  simp only [SomeCall, h.mem_iff]

theorem strength_perm (full : Bool) {calls calls' : List EntryCall} (h : calls'.Perm calls)
    (hcalls : ∀ c ∈ calls, c.Known) (w : Want) :
    ((new full).called calls').strength w = ((new full).called calls).strength w := by
  have hcalls' : ∀ c ∈ calls', c.Known := fun c hc => hcalls c (h.mem_iff.mp hc)
  have hmem : w ∈ ((new full).called calls').wantlist ↔ w ∈ ((new full).called calls).wantlist := by
    simp only [mem_called, h.mem_iff]
  rw [strength, strength]
  cases he : ((new full).called calls).wantlist.lookup w with
  | none =>
      have hno := mt hmem.mp (AList.lookup_eq_none.mp he)
      rw [AList.lookup_eq_none.mpr hno]
  | some e =>
      obtain ⟨e', he'⟩ := GoMap.mem_iff_lookup.mp (hmem.mpr (GoMap.mem_of_lookup he))
      have hm := mergeOf_called full calls hcalls w e he
      have hm' := mergeOf_called full calls' hcalls' w e' he'
      have hcancel : e'.cancel = e.cancel := by
        rw [Bool.eq_iff_iff, hm'.cancel, hm.cancel, SomeCall.perm h]
      have hsend : e'.sendDontHave = e.sendDontHave := by
        rw [Bool.eq_iff_iff, hm'.sendDontHave, hm.sendDontHave, SomeCall.perm h]
      have htype : e'.wantType = .wantBlock ↔ e.wantType = .wantBlock := by
        rw [hm'.wantBlock, hm.wantBlock, SomeCall.perm h]
      have htype' : e'.wantType = e.wantType := by
        rcases hm.known with ht | ht
        · rw [ht, htype.mpr ht]
        · rcases hm'.known with ht' | ht'
          · rw [htype.mp ht'] at ht
            cases ht
          · rw [ht, ht']
      rw [he']
      simp [hcancel, hsend, htype']

/-- A want has one entry in the list. -/
theorem filter_wantlistEntries {m : Message} {w : Want} {e : Entry}
    (he : m.wantlist.lookup w = some e) (o : RangeOrder) :
    ((m.wantlistEntries o).filter fun e' => e'.want = w) = [e] := by
  have hkey := m.keyed w e he
  have hnd : (m.wantlistEntries o).Nodup := .of_map Entry.want nodup_wantlistEntries
  refine List.perm_singleton.mp ((List.perm_ext_iff_of_nodup (hnd.filter _) (by simp)).mpr ?_)
  intro e'
  rw [List.mem_filter, mem_wantlistEntries, List.mem_singleton, decide_eq_true_iff]
  constructor
  · rintro ⟨he', rfl⟩
    exact Option.some.inj (he'.symm.trans he)
  · rintro rfl
    exact ⟨hkey.symm ▸ he, hkey⟩

/-- **Calls for one want merge without losing strength.**  A want that is named has one entry,
which the calls for the want give as `MergeOf` says; all but the priority is the same for every
order of the calls; and the sizes returned are those of the entries as they were first added. -/
theorem entries_merge (full : Bool) (calls : List EntryCall) (hcalls : ∀ c ∈ calls, c.Known) :
    (∀ w, (∃ c ∈ calls, c.want = w) → ∃ e, MergeOf (new full) calls w e ∧
      ∀ o, ((((new full).called calls).wantlistEntries o).filter fun e' => e'.want = w) = [e]) ∧
    (∀ calls', calls'.Perm calls → ∀ w,
      ((new full).called calls').strength w = ((new full).called calls).strength w) ∧
    ((new full).sizes calls).sum = ((firstAdded [] calls).map Entry.size).sum := by
  refine ⟨fun w hw => ?_, fun calls' h w => strength_perm full h hcalls w, ?_⟩
  · obtain ⟨e, he⟩ := GoMap.mem_iff_lookup.mp ((mem_called full calls w).mpr hw)
    exact ⟨e, mergeOf_called full calls hcalls w e he, filter_wantlistEntries he⟩
  · exact sum_sizes calls (new full) [] (by simp [new])

/-- A want-have, then want-blocks, then a want-have again: the entry is a want-block with the
priority of the second want-block, the first one that found a want-block. -/
theorem entries_merge_upgraded :
    let w : Want := ⟨⟨[1]⟩, []⟩
    let calls : List EntryCall := [.addEntry w 1 .wantHave false, .addEntry w 2 .wantBlock true,
      .addEntry w 3 .wantBlock false, .addEntry w 4 .wantHave false]
    (∀ c ∈ calls, c.Known) ∧
      ((new true).called calls).wantlist.lookup w = some ⟨w, 3, .wantBlock, false, true⟩ ∧
      (∃ e, MergeOf (new true) calls w e ∧ ∀ o,
        ((((new true).called calls).wantlistEntries o).filter fun e' => e'.want = w) = [e]) ∧
      ((new true).sizes calls).sum = ((firstAdded [] calls).map Entry.size).sum := by
  intro w calls
  have hcalls : ∀ c ∈ calls, c.Known := by decide
  obtain ⟨hone, -, hsizes⟩ := entries_merge true calls hcalls
  exact ⟨hcalls, by decide, hone w ⟨_, List.mem_cons_self, rfl⟩, hsizes⟩

end Message

end BitswapAuth
