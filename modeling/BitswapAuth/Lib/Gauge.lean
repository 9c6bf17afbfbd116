/-
# `BitswapAuth.Lib.Gauge` — counters that follow a set

A gauge is moved by one whenever an element comes into a set or leaves it, and is
meant to show how many elements the set has.  The set is never built by the program:
it is given by a predicate, and each step says how the predicate changes.

| the step | the gauge |
|---|---|
| nothing comes or goes | stays (`Counts.congr`) |
| one element is put in | plus one if it was not there (`Counts.enter`) |
| one element may go | minus one if it is gone (`Counts.leave`) |
| the elements of a list go | minus one for each that was there (`Counts.leaveAll`) |
-/
import Mathlib.Data.Finset.Card

namespace Lib

variable {α : Type*} {g : Int} {P Q : α → Prop} {a : α}

/-- **The gauge counts the elements that have the property**: they are finitely many, and
the gauge is their number. -/
def Counts (g : Int) (P : α → Prop) : Prop :=
  ∃ S : Finset α, (∀ x, x ∈ S ↔ P x) ∧ g = S.card

theorem Counts.none (h : ∀ x, ¬ P x) : Counts 0 P :=
  ⟨∅, fun x => by simp [h x], rfl⟩

theorem Counts.congr (h : Counts g P) (hQ : ∀ x, Q x ↔ P x) : Counts g Q := by
  obtain ⟨S, hS, hg⟩ := h
  exact ⟨S, fun x => (hS x).trans (hQ x).symm, hg⟩

/-- A gauge that counts the elements of a finite set is its cardinality. -/
theorem Counts.eq_card {S : Finset α} (h : Counts g P) (hS : ∀ x, x ∈ S ↔ P x) : g = S.card := by
  obtain ⟨T, hT, hg⟩ := h
  have hTS : T = S := Finset.ext fun x => (hT x).trans (hS x).symm
  rw [hg, hTS]

section

variable [DecidableEq α]

/-- **An element is put in.** -/
theorem Counts.enter {c : Prop} [Decidable c] (h : Counts g P) (hc : c ↔ P a)
    (hQ : ∀ x, Q x ↔ P x ∨ x = a) : Counts (if c then g else g + 1) Q := by
  obtain ⟨S, hS, hg⟩ := h
  have hmem : ∀ x, x ∈ insert a S ↔ Q x := by
    intro x
    rw [Finset.mem_insert, hS, hQ, or_comm]
  refine ⟨insert a S, hmem, ?_⟩
  split
  · rename_i h
    rw [Finset.insert_eq_of_mem ((hS a).mpr (hc.mp h)), hg]
  · rename_i h
    rw [Finset.card_insert_of_notMem (fun ha => h (hc.mpr ((hS a).mp ha))), hg]
    push_cast
    rfl

/-- **An element may go**: the gauge is moved when it is looked up afterwards and not found. -/
theorem Counts.leave {c : Prop} [Decidable c] (h : Counts g P) (ha : P a) (hc : c ↔ Q a)
    (hQ : ∀ x, x ≠ a → (Q x ↔ P x)) : Counts (if c then g else g - 1) Q := by
  obtain ⟨S, hS, hg⟩ := h
  split
  · rename_i h
    refine ⟨S, fun x => ?_, hg⟩
    by_cases hx : x = a
    · subst hx
      exact iff_of_true ((hS x).mpr ha) (hc.mp h)
    · rw [hS, hQ x hx]
  · rename_i h
    refine ⟨S.erase a, fun x => ?_, ?_⟩
    · rw [Finset.mem_erase, hS]
      by_cases hx : x = a
      · subst hx
        exact iff_of_false (fun hn => hn.1 rfl) (fun hq => h (hc.mpr hq))
      · rw [hQ x hx]
        exact and_iff_right hx
    · have hcard := Finset.card_erase_add_one ((hS a).mpr ha)
      omega

/-- **The elements of a list go**, each looked up before any of them is gone. -/
theorem Counts.leaveAll {c : α → Prop} [DecidablePred c] : ∀ {ks : List α} {g : Int}
    {P : α → Prop}, Counts g P → ks.Nodup → (∀ k ∈ ks, c k ↔ P k) →
    Counts (ks.foldl (fun g k => if c k then g - 1 else g) g) (fun x => P x ∧ x ∉ ks)
  | [], _, _, h, _, _ => h.congr fun x => by simp
  | k :: ks, g, P, h, hnd, hc => by
      obtain ⟨hk, hnd⟩ := List.nodup_cons.mp hnd
      -- the first element goes, and the rest of the list is of elements that have not gone
      have hone : Counts (if c k then g - 1 else g) (fun x => P x ∧ x ≠ k) := by
        by_cases hp : P k
        · rw [if_pos ((hc k List.mem_cons_self).mpr hp)]
          have := h.leave (c := False) (Q := fun x => P x ∧ x ≠ k) hp (by simp) (by simp_all)
          rwa [if_neg not_false] at this
        · rw [if_neg (mt (hc k List.mem_cons_self).mp hp)]
          refine h.congr fun x => and_iff_left_of_imp ?_
          rintro hx rfl
          exact hp hx
      have hrest : ∀ j ∈ ks, c j ↔ P j ∧ j ≠ k := by
        intro j hj
        have hjk : j ≠ k := fun he => hk (he ▸ hj)
        rw [hc j (List.mem_cons_of_mem k hj), and_iff_left hjk]
      refine (leaveAll hone hnd hrest).congr fun x => ?_
      rw [List.mem_cons, not_or, and_assoc]

end

end Lib
