/-
# `BitswapAuth.Lib.Map` — finite maps and sets that are ranged over in any order

A hash map of the source language is an association list without repeated
keys, so Mathlib's `AList` is the carrier and its lemmas are used as they
stand.  What is added here:

* `modify`, the in-place update of a stored value;
* the `if`-forms of the lookup equations, which is how the invariants of the
  development read a map after an update;
* `GoSet`, a map to `Unit`;
* `RangeOrder`.  Ranging over a map visits its keys in an order the language
  leaves open, and a different one each time.  A `RangeOrder` is one such
  choice, a permutation of positions for every length; a statement about all
  of them is a statement about every order of visits;
* `copy`, a map filled from another by ranging over it.
-/
import BitswapAuth.Lib.Run
import Mathlib.Data.List.AList
import Mathlib.Data.List.FinRange

namespace Lib

/-- A finite map. -/
abbrev GoMap (K V : Type) := AList (fun _ : K => V)

namespace GoMap

variable {K V W : Type}

/-- The number of keys. -/
def len (m : GoMap K V) : Nat := m.keys.length

/-- The stored values. -/
def values (m : GoMap K V) : List V := m.entries.map (·.2)

/-- The keys with their values, in the order they are stored. -/
def pairs (m : GoMap K V) : List (K × V) := m.entries.map fun e => (e.1, e.2)

variable [DecidableEq K]

/-- The value at one key replaced, if there is one. -/
def modify (k : K) (f : V → V) (m : GoMap K V) : GoMap K V :=
  match m.lookup k with
  | none => m
  | some v => m.insert k (f v)

/-- The value at a key, with a default for an absent one. -/
def getD (m : GoMap K V) (k : K) (d : V) : V := (m.lookup k).getD d

/-! ## Lookups after an update -/

@[grind =]
theorem lookup_insert_ite {m : GoMap K V} {k k' : K} {v : V} :
    AList.lookup k' (AList.insert k v m) = if k' = k then some v else AList.lookup k' m := by
  by_cases h : k' = k
  · subst h; simp
  · simp [h]

@[grind =]
theorem lookup_erase_ite {m : GoMap K V} {k k' : K} :
    AList.lookup k' (AList.erase k m) = if k' = k then none else AList.lookup k' m := by
  by_cases h : k' = k
  · subst h; simp
  · simp [h]

attribute [grind =] AList.mem_insert AList.mem_erase AList.lookup_empty

theorem getD_insert_ite {m : GoMap K V} {k k' : K} {v d : V} :
    getD (AList.insert k v m) k' d = if k' = k then v else getD m k' d := by
  rw [getD, lookup_insert_ite]
  split <;> rfl

theorem getD_erase_ite {m : GoMap K V} {k k' : K} {d : V} :
    getD (AList.erase k m) k' d = if k' = k then d else getD m k' d := by
  rw [getD, lookup_erase_ite]
  split <;> rfl

theorem mem_iff_lookup {m : GoMap K V} {k : K} :
    k ∈ m ↔ ∃ v, AList.lookup k m = some v := by
  rw [← AList.lookup_isSome, Option.isSome_iff_exists]

theorem mem_of_lookup {m : GoMap K V} {k : K} {v : V} (h : AList.lookup k m = some v) : k ∈ m :=
  mem_iff_lookup.mpr ⟨v, h⟩

theorem lookup_modify {m : GoMap K V} {f : V → V} {k k' : K} :
    AList.lookup k' (modify k f m)
      = if k' = k then (AList.lookup k m).map f else AList.lookup k' m := by
  rw [modify]
  split
  · rename_i h
    by_cases hk : k' = k
    · subst hk; simp [h]
    · simp [hk]
  · rename_i v h
    rw [lookup_insert_ite, h]
    rfl

/-- What is stored after an insertion: the new value at the key, and the old ones elsewhere. -/
theorem lookup_insert_eq_some {m : GoMap K V} {k k' : K} {v v' : V} :
    AList.lookup k' (AList.insert k v m) = some v' ↔
      (k' = k ∧ v' = v) ∨ (k' ≠ k ∧ AList.lookup k' m = some v') := by
  rw [lookup_insert_ite]
  by_cases hk : k' = k
  · simp [hk, eq_comm]
  · simp [hk]

/-- What is stored after a deletion: the old values at the other keys. -/
theorem lookup_erase_eq_some {m : GoMap K V} {k k' : K} {v : V} :
    AList.lookup k' (AList.erase k m) = some v ↔ k' ≠ k ∧ AList.lookup k' m = some v := by
  rw [lookup_erase_ite]
  by_cases hk : k' = k <;> simp [hk]

theorem lookup_modify_eq_some {m : GoMap K V} {f : V → V} {k k' : K} {v' : V} :
    AList.lookup k' (modify k f m) = some v' ↔
      (k' = k ∧ ∃ v, AList.lookup k m = some v ∧ v' = f v) ∨
        (k' ≠ k ∧ AList.lookup k' m = some v') := by
  rw [lookup_modify]
  by_cases hk : k' = k
  · simp [hk, eq_comm]
  · simp [hk]

@[simp]
theorem mem_modify {m : GoMap K V} {f : V → V} {k k' : K} : k' ∈ modify k f m ↔ k' ∈ m := by
  simp only [mem_iff_lookup, lookup_modify]
  by_cases hk : k' = k
  · subst hk; simp
  · simp [hk]

/-- An entry of the list is what the lookup finds. -/
theorem lookup_of_mem_entries {m : GoMap K V} {k : K} {v : V}
    (h : (⟨k, v⟩ : Sigma fun _ : K => V) ∈ m.entries) : AList.lookup k m = some v :=
  AList.mem_lookup_iff.mpr h

theorem mem_values {m : GoMap K V} {v : V} :
    v ∈ m.values ↔ ∃ k, AList.lookup k m = some v := by
  rw [values]
  rw [List.mem_map]
  constructor
  · rintro ⟨⟨k, v'⟩, he, rfl⟩
    exact ⟨k, lookup_of_mem_entries he⟩
  · rintro ⟨k, hk⟩
    exact ⟨⟨k, v⟩, AList.mem_lookup_iff.mp hk, rfl⟩

theorem mem_pairs {m : GoMap K V} {e : K × V} :
    e ∈ m.pairs ↔ AList.lookup e.1 m = some e.2 := by
  rw [pairs]
  rw [List.mem_map]
  constructor
  · rintro ⟨⟨k, v⟩, he, rfl⟩
    exact lookup_of_mem_entries he
  · intro h
    exact ⟨⟨e.1, e.2⟩, AList.mem_lookup_iff.mp h, rfl⟩

omit [DecidableEq K] in
theorem map_fst_pairs {m : GoMap K V} : m.pairs.map Prod.fst = m.keys := by
  rw [pairs]
  rw [List.map_map]
  rfl

omit [DecidableEq K] in
theorem nodup_pairs (m : GoMap K V) : m.pairs.Nodup :=
  .of_map Prod.fst (map_fst_pairs ▸ m.keys_nodup)

/-- Maps with the same content store it in some order each. -/
theorem pairs_perm {m m' : GoMap K V} (h : ∀ k, AList.lookup k m = AList.lookup k m') :
    m.pairs.Perm m'.pairs := by
  refine (List.perm_ext_iff_of_nodup m.nodup_pairs m'.nodup_pairs).mpr fun e => ?_
  rw [mem_pairs, mem_pairs, h]

theorem values_perm {m m' : GoMap K V} (h : ∀ k, AList.lookup k m = AList.lookup k m') :
    m.values.Perm m'.values := by
  have hvalues : ∀ m : GoMap K V, m.values = m.pairs.map Prod.snd := by
    intro m
    rw [values, pairs, List.map_map]
    rfl
  rw [hvalues, hvalues]
  exact (pairs_perm h).map Prod.snd

omit [DecidableEq K] in
theorem len_eq_zero {m : GoMap K V} : m.len = 0 ↔ ∀ k, k ∉ m := by
  rw [len]
  rw [List.length_eq_zero_iff, List.eq_nil_iff_forall_not_mem]
  rfl

omit [DecidableEq K] in
theorem len_ne_zero {m : GoMap K V} : m.len ≠ 0 ↔ ∃ k, k ∈ m := by
  rw [ne_eq, len_eq_zero, not_forall]
  simp only [not_not]

omit [DecidableEq K] in
theorem len_le {m : GoMap K V} {m' : GoMap K W} (h : ∀ k ∈ m, k ∈ m') : m.len ≤ m'.len :=
  (List.subperm_of_subset m.keys_nodup h).length_le

omit [DecidableEq K] in
theorem len_lt {m : GoMap K V} {m' : GoMap K W} {k : K} (h : ∀ k ∈ m, k ∈ m') (hk : k ∈ m')
    (hno : k ∉ m) : m.len < m'.len := by
  have hsub : k :: m.keys ⊆ m'.keys := List.cons_subset.mpr ⟨hk, h⟩
  exact (List.subperm_of_subset (List.nodup_cons.mpr ⟨hno, m.keys_nodup⟩) hsub).length_le

end GoMap

/-! ## Sets -/

/-- A finite set: a map to nothing. -/
abbrev GoSet (K : Type) := GoMap K Unit

namespace GoSet

variable {K : Type} [DecidableEq K]

def add (s : GoSet K) (k : K) : GoSet K := AList.insert k () s

def remove (s : GoSet K) (k : K) : GoSet K := AList.erase k s

def has (s : GoSet K) (k : K) : Bool := decide (k ∈ s)

/-- The set of a list's members. -/
def ofList (ks : List K) : GoSet K := ks.foldl add ∅

@[simp, grind =]
theorem mem_add {s : GoSet K} {k k' : K} : k' ∈ s.add k ↔ k' = k ∨ k' ∈ s :=
  AList.mem_insert s

@[simp, grind =]
theorem mem_remove {s : GoSet K} {k k' : K} : k' ∈ s.remove k ↔ k' ≠ k ∧ k' ∈ s :=
  AList.mem_erase

@[simp, grind =]
theorem has_eq_true {s : GoSet K} {k : K} : s.has k = true ↔ k ∈ s :=
  decide_eq_true_iff

@[simp, grind =]
theorem has_eq_false {s : GoSet K} {k : K} : s.has k = false ↔ k ∉ s :=
  decide_eq_false_iff_not

omit [DecidableEq K] in
theorem mem_or_mem_cons {s : GoSet K} {k k' : K} {ks : List K} (h : k ∈ s) :
    k' ∈ s ∨ k' ∈ k :: ks ↔ k' ∈ s ∨ k' ∈ ks := by
  rw [List.mem_cons]
  refine ⟨?_, fun h' => h'.imp_right .inr⟩
  rintro (h' | rfl | h')
  · exact .inl h'
  · exact .inl h
  · exact .inr h'

theorem mem_foldl_add (ks : List K) : ∀ (s : GoSet K) (k : K),
    k ∈ ks.foldl add s ↔ k ∈ s ∨ k ∈ ks := by
  induction ks with
  | nil => intro s k; simp
  | cons a ks ih =>
      intro s k
      rw [List.foldl_cons, ih, mem_add, List.mem_cons]
      tauto

theorem mem_foldl_remove (ks : List K) : ∀ (s : GoSet K) (k : K),
    k ∈ ks.foldl remove s ↔ k ∈ s ∧ k ∉ ks := by
  induction ks with
  | nil => intro s k; simp
  | cons a ks ih =>
      intro s k
      rw [List.foldl_cons, ih, mem_remove, List.mem_cons]
      tauto

@[simp]
theorem mem_ofList {ks : List K} {k : K} : k ∈ ofList ks ↔ k ∈ ks := by
  simp [ofList, mem_foldl_add]

/-- The members of a list that are not in the set, each where it first occurs. -/
def fresh (s : GoSet K) : List K → List K
  | [] => []
  | k :: ks => if s.has k then fresh s ks else k :: fresh (s.add k) ks

theorem fresh_cons_of_mem {s : GoSet K} {k : K} {ks : List K} (h : k ∈ s) :
    s.fresh (k :: ks) = s.fresh ks :=
  if_pos (has_eq_true.mpr h)

theorem fresh_cons_of_notMem {s : GoSet K} {k : K} {ks : List K} (h : k ∉ s) :
    s.fresh (k :: ks) = k :: (s.add k).fresh ks :=
  if_neg fun h' => h (has_eq_true.mp h')

theorem mem_fresh {k : K} : ∀ {s : GoSet K} {ks : List K}, k ∈ s.fresh ks ↔ k ∈ ks ∧ k ∉ s
  | s, [] => by simp [fresh]
  | s, a :: ks => by
      by_cases ha : a ∈ s
      · rw [fresh_cons_of_mem ha, mem_fresh, List.mem_cons]
        constructor
        · exact fun h => ⟨.inr h.1, h.2⟩
        · rintro ⟨rfl | h, hs⟩
          · exact absurd ha hs
          · exact ⟨h, hs⟩
      · rw [fresh_cons_of_notMem ha, List.mem_cons, List.mem_cons, mem_fresh, mem_add]
        by_cases hk : k = a
        · subst hk; simp [ha]
        · simp [hk]

theorem nodup_fresh : ∀ (s : GoSet K) (ks : List K), (s.fresh ks).Nodup
  | _, [] => List.nodup_nil
  | s, a :: ks => by
      rw [fresh]
      split
      · exact nodup_fresh s ks
      · refine List.nodup_cons.mpr ⟨fun h => (mem_fresh.mp h).2 ?_, nodup_fresh _ ks⟩
        exact mem_add.mpr (.inl rfl)

end GoSet

/-! ## Maps to sets -/

namespace GoMap

variable {K P : Type} [DecidableEq K] [DecidableEq P]

/-- A member put into the set at a key, which is made if there is none. -/
def link (k : K) (p : P) (m : GoMap K (GoSet P)) : GoMap K (GoSet P) :=
  m.insert k (((m.lookup k).getD ∅).add p)

/-- A member taken out of the set at a key, and the set dropped once it is empty. -/
def unlink (k : K) (p : P) (m : GoMap K (GoSet P)) : GoMap K (GoSet P) :=
  match m.lookup k with
  | none => m
  | some s => if (s.remove p).len = 0 then m.erase k else m.insert k (s.remove p)

/-- The set at the key has the member. -/
def Linked (m : GoMap K (GoSet P)) (k : K) (p : P) : Prop := ∃ s, m.lookup k = some s ∧ p ∈ s

theorem linked_link {m : GoMap K (GoSet P)} {k k' : K} {p q : P} :
    (m.link k p).Linked k' q ↔ (k' = k ∧ q = p) ∨ m.Linked k' q := by
  unfold Linked link
  rw [lookup_insert_ite]
  by_cases hk : k' = k
  · subst hk
    cases m.lookup k' with
    | none => simp
    | some s => simp
  · simp [hk]

theorem linked_unlink {m : GoMap K (GoSet P)} {k k' : K} {p q : P} :
    (m.unlink k p).Linked k' q ↔ ¬ (k' = k ∧ q = p) ∧ m.Linked k' q := by
  unfold Linked unlink
  split
  · rename_i h
    by_cases hk : k' = k
    · subst hk; simp [h]
    · simp [hk]
  · rename_i s h
    by_cases hk : k' = k
    · subst hk
      split
      · rename_i h0
        have hno : ∀ x, x ∉ s.remove p := len_eq_zero.mp h0
        simp only [lookup_erase_ite, h, if_true]
        constructor
        · rintro ⟨_, h', _⟩; simp at h'
        · rintro ⟨hne, s', hs', hq⟩
          obtain rfl := Option.some.inj hs'
          exact absurd (GoSet.mem_remove.mpr ⟨fun he => hne ⟨trivial, he⟩, hq⟩) (hno q)
      · simp [h]
    · split <;> simp [hk]

omit [DecidableEq P] in
theorem linked_erase {m : GoMap K (GoSet P)} {k k' : K} {q : P} :
    Linked (m.erase k) k' q ↔ k' ≠ k ∧ m.Linked k' q := by
  unfold Linked
  rw [lookup_erase_ite]
  by_cases hk : k' = k <;> simp [hk]

/-- No set is empty: a key is there only for a member. -/
def NonemptySets (m : GoMap K (GoSet P)) : Prop := ∀ k ∈ m, ∃ p, m.Linked k p

theorem NonemptySets.link {m : GoMap K (GoSet P)} (h : m.NonemptySets) (k : K) (p : P) :
    (m.link k p).NonemptySets := by
  intro k' hk'
  by_cases hk : k' = k
  · exact ⟨p, linked_link.mpr (.inl ⟨hk, rfl⟩)⟩
  · obtain ⟨q, hq⟩ := h k' (((AList.mem_insert _).mp hk').resolve_left hk)
    exact ⟨q, linked_link.mpr (.inr hq)⟩

omit [DecidableEq P] in
theorem NonemptySets.erase {m : GoMap K (GoSet P)} (h : m.NonemptySets) (k : K) :
    NonemptySets (AList.erase k m) := by
  intro k' hk'
  obtain ⟨hne, hmem⟩ := AList.mem_erase.mp hk'
  obtain ⟨q, hq⟩ := h k' hmem
  exact ⟨q, linked_erase.mpr ⟨hne, hq⟩⟩

theorem NonemptySets.unlink {m : GoMap K (GoSet P)} (h : m.NonemptySets) (k : K) (p : P) :
    (m.unlink k p).NonemptySets := by
  rw [GoMap.unlink]
  split
  · exact h
  · split
    · exact h.erase k
    · rename_i s hs hlen
      intro k' hk'
      by_cases hk : k' = k
      · -- the set that is put back has a member left
        subst hk
        obtain ⟨q, hq⟩ := len_ne_zero.mp hlen
        exact ⟨q, _, AList.lookup_insert _, hq⟩
      · obtain ⟨q, s', hs', hq⟩ := h k' (((AList.mem_insert _).mp hk').resolve_left hk)
        exact ⟨q, s', (AList.lookup_insert_ne hk).trans hs', hq⟩

end GoMap

/-! ## Orders of visit -/

/-- One choice of the order in which a range visits its keys: for every number
of keys a permutation of the positions. -/
def RangeOrder := (n : Nat) → Equiv.Perm (Fin n)

namespace RangeOrder

variable {α : Type}

/-- The keys in the order they are stored. -/
def stored : RangeOrder := fun _ => Equiv.refl _

/-- The list as a range over it visits it. -/
def range (o : RangeOrder) (l : List α) : List α :=
  List.ofFn fun i => l.get (o l.length i)

theorem range_perm (o : RangeOrder) (l : List α) : (o.range l).Perm l := by
  have h := (o l.length).ofFn_comp_perm l.get
  rw [List.ofFn_get] at h
  exact h

@[simp]
theorem mem_range {o : RangeOrder} {l : List α} {a : α} : a ∈ o.range l ↔ a ∈ l :=
  (o.range_perm l).mem_iff

theorem nodup_range {o : RangeOrder} {l : List α} : (o.range l).Nodup ↔ l.Nodup :=
  (o.range_perm l).nodup_iff

/-- Every order of a list is one in which a range can visit it. -/
theorem exists_range {l l' : List α} (h : l'.Perm l) : ∃ o : RangeOrder, o.range l = l' := by
  classical
  have hbij : Function.Bijective h.idxBij := ⟨h.idxBij_injective, h.idxBij_surjective⟩
  let σ : Equiv.Perm (Fin l.length) :=
    (finCongr h.length_eq.symm).trans (Equiv.ofBijective h.idxBij hbij)
  obtain ⟨o, ho⟩ : ∃ o : RangeOrder, o l.length = σ :=
    ⟨fun n => if hn : n = l.length then hn ▸ σ else Equiv.refl _, dif_pos rfl⟩
  refine ⟨o, ?_⟩
  unfold range
  rw [ho]
  refine List.ext_getElem (by simp [h.length_eq]) fun i hi hi' => ?_
  rw [List.getElem_ofFn]
  exact h.getElem_idxBij_eq_getElem ⟨i, hi'⟩

end RangeOrder

/-- A map filled from another, one key after the other. -/
def GoMap.copy {K V : Type} [DecidableEq K] (o : RangeOrder) (m : GoMap K V) : GoMap K V :=
  (o.range m.pairs).foldl (fun c e => c.insert e.1 e.2) ∅

theorem GoMap.lookup_copy {K V : Type} [DecidableEq K] (o : RangeOrder) (m : GoMap K V) (k : K) :
    (m.copy o).lookup k = m.lookup k := by
  have hother : ∀ (c : GoMap K V) (e : K × V), e.1 ≠ k →
      (c.insert e.1 e.2).lookup k = c.lookup k := by
    intro c e he
    exact AList.lookup_insert_ne (Ne.symm he)
  have hkeys : ((o.range m.pairs).map Prod.fst).Perm m.keys :=
    map_fst_pairs (m := m) ▸ (o.range_perm m.pairs).map Prod.fst
  by_cases hk : k ∈ m
  · obtain ⟨v, hv⟩ := mem_iff_lookup.mp hk
    have hmem : (k, v) ∈ o.range m.pairs := RangeOrder.mem_range.mpr (mem_pairs.mpr hv)
    obtain ⟨c, -, hc⟩ := foldl_own (AList.lookup k) Prod.fst (hkeys.nodup_iff.mpr m.keys_nodup)
      hmem hother ∅
    rw [copy, hc, hv]
    exact AList.lookup_insert c
  · rw [copy, foldl_elsewhere (AList.lookup k) Prod.fst hother _ _ fun h => hk (hkeys.mem_iff.mp h),
      AList.lookup_empty, AList.lookup_eq_none.mpr hk]

end Lib
