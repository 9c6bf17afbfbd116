/-
# `BitswapAuth.Wantlist` — the package `wantlist`

A wantlist is a map from wants to entries.  A want-block is the stronger of
the two types: adding a want-have to it changes nothing, and removing a
want-have leaves it in place.
-/
import BitswapAuth.Auth

namespace BitswapAuth

open Lib

/-- `pb.Message_Wantlist_WantType`.  The enumeration is open on the wire: a number
that names neither type is kept as it came. -/
inductive WantType where
  | wantBlock
  | wantHave
  | unknown (n : Int32) (h : n ≠ 0 ∧ n ≠ 1)
  deriving DecidableEq

/-- `wantlist.Entry`. -/
structure Wantlist.Entry where
  want : Want
  priority : Int32
  wantType : WantType
  deriving DecidableEq

/-- `wantlist.Wantlist`.  Every entry is stored under its own want. -/
structure Wantlist where
  set : GoMap Want Wantlist.Entry
  keyed : ∀ c e, set.lookup c = some e → e.want = c

namespace Wantlist

/-- `wantlist.New`. -/
def new : Wantlist := ⟨∅, fun c e h => by simp at h⟩

/-- `Wantlist.Len`. -/
def len (w : Wantlist) : Nat := w.set.len

/-- `Wantlist.Contains`. -/
def contains (w : Wantlist) (c : Want) : Option Entry := w.set.lookup c

/-- An entry stored under its want. -/
def put (w : Wantlist) (e : Entry) : Wantlist where
  set := w.set.insert e.want e
  keyed c e' h := by
    rw [GoMap.lookup_insert_ite] at h
    split at h
    · rename_i hc; rw [← Option.some.inj h, hc]
    · exact w.keyed c e' h

/-- An entry deleted. -/
def delete (w : Wantlist) (c : Want) : Wantlist where
  set := w.set.erase c
  keyed c' e h := by
    rw [GoMap.lookup_erase_ite] at h
    split at h
    · exact absurd h (by simp)
    · exact w.keyed c' e h

/-- `Wantlist.Add`. -/
def add (w : Wantlist) (c : Want) (priority : Int32) (wantType : WantType) : Wantlist × Bool :=
  match w.set.lookup c with
  | some e =>
      -- adding a want-have does not override a want-block
      if e.wantType = .wantBlock ∨ wantType = .wantHave then (w, false)
      else (w.put ⟨c, priority, wantType⟩, true)
  | none => (w.put ⟨c, priority, wantType⟩, true)

/-- `Wantlist.Remove`. -/
def remove (w : Wantlist) (c : Want) : Wantlist × Bool :=
  if c ∈ w.set then (w.delete c, true) else (w, false)

/-- `Wantlist.RemoveType`. -/
def removeType (w : Wantlist) (c : Want) (wantType : WantType) : Wantlist × Bool :=
  match w.set.lookup c with
  | none => (w, false)
  | some e =>
      -- removing a want-have does not remove a want-block
      if e.wantType = .wantBlock ∧ wantType = .wantHave then (w, false)
      else (w.delete c, true)

/-- `Wantlist.Entries`, in the order the range visits them. -/
def entries (w : Wantlist) (o : RangeOrder) : List Entry := o.range w.set.values

/-- `Wantlist.Absorb`. -/
def absorb (w : Wantlist) (o : RangeOrder) (other : Wantlist) : Wantlist :=
  (other.entries o).foldl (fun w e => (w.add e.want e.priority e.wantType).1) w

/-- `wantlist.SortEntries`: highest priority first.  The source's sort is not
stable; the order of equal priorities is that of the list, which ranges over a
map. -/
def sortEntries (es : List Entry) : List Entry :=
  es.mergeSort fun a b => decide (b.priority ≤ a.priority)

instance : Membership Want Wantlist := ⟨fun w c => c ∈ w.set⟩

instance (c : Want) (w : Wantlist) : Decidable (c ∈ w) :=
  inferInstanceAs (Decidable (c ∈ w.set))

/-! ## Membership and types after an operation -/

theorem mem_def {w : Wantlist} {c : Want} : c ∈ w ↔ c ∈ w.set := Iff.rfl

theorem mem_iff {w : Wantlist} {c : Want} : c ∈ w ↔ ∃ e, w.set.lookup c = some e :=
  GoMap.mem_iff_lookup

@[simp]
theorem not_mem_new {c : Want} : c ∉ new := AList.notMem_empty c

theorem isSome_contains {w : Wantlist} {c : Want} : (w.contains c).isSome = true ↔ c ∈ w :=
  AList.lookup_isSome

theorem mem_put {w : Wantlist} {e : Entry} {k : Want} : k ∈ w.put e ↔ k = e.want ∨ k ∈ w :=
  AList.mem_insert _

theorem mem_delete {w : Wantlist} {c k : Want} : k ∈ w.delete c ↔ k ≠ c ∧ k ∈ w :=
  AList.mem_erase

@[simp]
theorem mem_add {w : Wantlist} {c k : Want} {p : Int32} {t : WantType} :
    k ∈ (w.add c p t).1 ↔ k = c ∨ k ∈ w := by
  rw [add]
  split
  · rename_i e he
    have hc : c ∈ w := mem_iff.mpr ⟨e, he⟩
    split
    · constructor
      · exact Or.inr
      · rintro (rfl | h)
        · exact hc
        · exact h
    · exact mem_put
  · exact mem_put

/-- What `add` leaves under a want: an entry that is there yields only to a stronger one. -/
def merged (old : Option Entry) (e : Entry) : Entry :=
  match old with
  | none => e
  | some e' => if e'.wantType = .wantBlock ∨ e.wantType = .wantHave then e' else e

theorem lookup_add {w : Wantlist} {c k : Want} {p : Int32} {t : WantType} :
    (w.add c p t).1.set.lookup k =
      if k = c then some (merged (w.set.lookup c) ⟨c, p, t⟩) else w.set.lookup k := by
  have hput : (w.put ⟨c, p, t⟩).set.lookup k =
      if k = c then some ⟨c, p, t⟩ else w.set.lookup k := GoMap.lookup_insert_ite
  rw [add]
  cases hc : w.set.lookup c with
  | none => exact hput
  | some e =>
      dsimp only [merged]
      split
      · split
        · rename_i hk
          rw [hk, hc]
        · rfl
      · exact hput

/-- The list has the want as a want-block. -/
def HoldsBlock (l : Wantlist) (w : Want) : Prop :=
  ∃ e, l.set.lookup w = some e ∧ e.wantType = .wantBlock

theorem HoldsBlock.add {l : Wantlist} {w : Want} (h : l.HoldsBlock w) (c : Want) (p : Int32)
    (t : WantType) : (l.add c p t).1.HoldsBlock w := by
  obtain ⟨e, he, ht⟩ := h
  refine ⟨e, ?_, ht⟩
  rw [lookup_add]
  split
  · rename_i hw
    rw [← hw, he]
    exact congrArg some (if_pos (.inl ht))
  · exact he

@[simp]
theorem mem_remove {w : Wantlist} {c k : Want} : k ∈ (w.remove c).1 ↔ k ≠ c ∧ k ∈ w := by
  rw [remove]
  split
  · exact mem_delete
  · rename_i h
    constructor
    · intro hk; exact ⟨fun he => h (he ▸ hk), hk⟩
    · exact And.right

/-- What `removeType` takes out: the want, unless it is a want-block and a
want-have is to be removed. -/
theorem mem_removeType {w : Wantlist} {c k : Want} {t : WantType} :
    k ∈ (w.removeType c t).1 ↔
      k ∈ w ∧ (k = c → ∃ e, w.set.lookup c = some e ∧ e.wantType = .wantBlock ∧ t = .wantHave) := by
  rw [removeType]
  split
  · rename_i h
    refine ⟨fun hk => ⟨hk, ?_⟩, And.left⟩
    rintro rfl
    exact absurd hk (by rw [mem_def, ← AList.lookup_eq_none]; exact h)
  · rename_i e h
    split
    · rename_i ht
      exact ⟨fun hk => ⟨hk, fun _ => ⟨e, h, ht⟩⟩, And.left⟩
    · rename_i ht
      constructor
      · intro hk
        obtain ⟨hne, hk⟩ := mem_delete.mp hk
        exact ⟨hk, fun he => absurd he hne⟩
      · rintro ⟨hk, himp⟩
        refine mem_delete.mpr ⟨fun he => ?_, hk⟩
        obtain ⟨e', he', ht'⟩ := himp he
        obtain rfl : e = e' := Option.some.inj (h.symm.trans he')
        exact ht ht'

/-- The entry, if it is a want-block. -/
def onlyBlock (e : Option Entry) : Option Entry :=
  e.filter (fun e => e.wantType = .wantBlock)

theorem onlyBlock_idem (e : Option Entry) : onlyBlock (onlyBlock e) = onlyBlock e := by
  cases e with
  | none => rfl
  | some e => by_cases h : e.wantType = .wantBlock <;> simp [onlyBlock, Option.filter, h]

theorem onlyBlock_eq_some {e : Option Entry} {e' : Entry} :
    onlyBlock e = some e' ↔ e = some e' ∧ e'.wantType = .wantBlock := by
  simp [onlyBlock, Option.filter_eq_some_iff]

/-- `removeType` of a want-have keeps an entry only if it is a want-block. -/
theorem lookup_removeType_wantHave {w : Wantlist} {c k : Want} :
    (w.removeType c .wantHave).1.set.lookup k =
      if k = c then onlyBlock (w.set.lookup c) else w.set.lookup k := by
  rw [removeType]
  split
  · rename_i h
    split
    · rename_i hk; subst hk; simp [h, onlyBlock]
    · rfl
  · rename_i e h
    by_cases ht : e.wantType = .wantBlock
    · rw [if_pos ⟨ht, rfl⟩]
      split
      · rename_i hk; subst hk; simp [h, ht, onlyBlock, Option.filter]
      · rfl
    · rw [if_neg (fun h' => ht h'.1)]
      show (w.set.erase c).lookup k = _
      rw [GoMap.lookup_erase_ite, h]
      simp [ht, onlyBlock, Option.filter]

/-- `removeType` of a want-block takes out the entry, whatever its type. -/
theorem lookup_removeType_wantBlock {l : Wantlist} {c w : Want} :
    (l.removeType c .wantBlock).1.set.lookup w =
      if w = c then none else l.set.lookup w := by
  rw [removeType]
  split
  · rename_i hnone
    split
    · rename_i hw
      rw [hw, hnone]
    · rfl
  · rw [if_neg (by simp)]
    exact GoMap.lookup_erase_ite

theorem removeType_snd {w : Wantlist} {c : Want} {t : WantType} :
    (w.removeType c t).2 = true ↔
      ∃ e, w.set.lookup c = some e ∧ ¬ (e.wantType = .wantBlock ∧ t = .wantHave) := by
  rw [removeType]
  split
  · rename_i h
    simp [h]
  · rename_i e h
    split <;> simp_all

theorem lookup_removeType_of_ne {w : Wantlist} {c k : Want} {t : WantType} (hk : k ≠ c) :
    (w.removeType c t).1.set.lookup k = w.set.lookup k := by
  rw [removeType]
  split
  · rfl
  · split
    · rfl
    · exact AList.lookup_erase_ne hk

theorem mem_entries {w : Wantlist} {o : RangeOrder} {e : Entry} :
    e ∈ w.entries o ↔ w.set.lookup e.want = some e := by
  simp only [entries, RangeOrder.mem_range, GoMap.mem_values]
  constructor
  · rintro ⟨c, h⟩
    rw [w.keyed c e h]; exact h
  · exact fun h => ⟨_, h⟩

theorem exists_mem_entries {w : Wantlist} {o : RangeOrder} {k : Want} :
    (∃ e ∈ w.entries o, e.want = k) ↔ k ∈ w := by
  rw [mem_iff]
  constructor
  · rintro ⟨e, he, rfl⟩
    exact ⟨e, mem_entries.mp he⟩
  · rintro ⟨e, he⟩
    have hk := w.keyed k e he
    exact ⟨e, mem_entries.mpr (by rw [hk]; exact he), hk⟩

/-- No want is listed twice. -/
theorem nodup_entries {w : Wantlist} {o : RangeOrder} : ((w.entries o).map (·.want)).Nodup := by
  have hkeys : w.set.values.map (·.want) = w.set.keys := by
    rw [GoMap.values, List.map_map]
    refine List.map_congr_left fun e he => ?_
    exact w.keyed e.1 e.2 (GoMap.lookup_of_mem_entries he)
  have hperm := (o.range_perm w.set.values).map (·.want)
  exact hperm.nodup_iff.mpr (hkeys ▸ w.set.keys_nodup)

theorem sortEntries_perm (es : List Entry) : (sortEntries es).Perm es := List.mergeSort_perm _ _

@[simp]
theorem mem_sortEntries {es : List Entry} {e : Entry} : e ∈ sortEntries es ↔ e ∈ es :=
  (sortEntries_perm es).mem_iff

theorem mem_absorb {w other : Wantlist} {o : RangeOrder} {k : Want} :
    k ∈ w.absorb o other ↔ k ∈ w ∨ k ∈ other := by
  rw [← exists_mem_entries (w := other) (o := o)]
  rw [absorb]
  generalize other.entries o = es
  induction es generalizing w with
  | nil => simp
  | cons e es ih =>
      rw [List.foldl_cons, ih, mem_add]
      simp only [List.mem_cons, exists_eq_or_imp]
      tauto

/-! ## Lists of entries of some types -/

section OfTypes

variable {T : WantType → Prop} {w other : Wantlist} {o : RangeOrder} {c : Want} {p : Int32}
  {t : WantType}

/-- The type of every entry is one of those. -/
def OfTypes (T : WantType → Prop) (w : Wantlist) : Prop :=
  ∀ c e, w.set.lookup c = some e → T e.wantType

theorem ofTypes_new : OfTypes T new := fun c e h => by simp [new] at h

theorem OfTypes.put {e : Entry} (h : w.OfTypes T) (he : T e.wantType) : (w.put e).OfTypes T := by
  intro c e' h'
  rcases GoMap.lookup_insert_eq_some.mp h' with ⟨-, rfl⟩ | ⟨-, h'⟩
  · exact he
  · exact h c e' h'

theorem OfTypes.delete (h : w.OfTypes T) : (w.delete c).OfTypes T :=
  fun c' e h' => h c' e (GoMap.lookup_erase_eq_some.mp h').2

theorem OfTypes.add (h : w.OfTypes T) (ht : T t) : (w.add c p t).1.OfTypes T := by
  rw [Wantlist.add]
  split
  · split
    · exact h
    · exact h.put ht
  · exact h.put ht

theorem OfTypes.remove (h : w.OfTypes T) : (w.remove c).1.OfTypes T := by
  rw [Wantlist.remove]
  split
  · exact h.delete
  · exact h

theorem OfTypes.removeType (h : w.OfTypes T) : (w.removeType c t).1.OfTypes T := by
  rw [Wantlist.removeType]
  split
  · exact h
  · split
    · exact h
    · exact h.delete

theorem OfTypes.absorb (h : w.OfTypes T) (ho : other.OfTypes T) :
    (w.absorb o other).OfTypes T := by
  have hes : ∀ e ∈ other.entries o, T e.wantType :=
    fun e he => ho e.want e (mem_entries.mp he)
  rw [Wantlist.absorb]
  generalize other.entries o = es at hes
  induction es generalizing w with
  | nil => exact h
  | cons e es ih =>
      rw [List.foldl_cons]
      exact ih (h.add (hes e List.mem_cons_self)) fun e' he' => hes e' (List.mem_cons_of_mem _ he')

/-- Every entry is a want-have. -/
def Haves (w : Wantlist) : Prop := ∀ c e, w.set.lookup c = some e → e.wantType = .wantHave

theorem haves_iff_ofTypes : w.Haves ↔ w.OfTypes (· = .wantHave) := Iff.rfl

end OfTypes

end Wantlist

end BitswapAuth
