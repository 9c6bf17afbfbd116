/-
# `BitswapAuth.Lib.Slice` — reading and writing slices

A function on a slice ends with a value or with an error, or it panics because
an index is out of range; a loop that is given a bound on its rounds may also use
it up.  Two things are said of such functions:

    Matches R x y     x ends with a value that R relates to that of y, or with an
                      error where y has none; it neither panics nor uses up its bound
    Writes f bs       f writes bs from the cursor on, in every buffer that has the room

Both go through sequences, branches and loops (`Matches.bind`, `writes_bind`,
`writes_when`, `writes_forM`), so that a function is compared with a list function step
by step, and what it does to indices is settled once.
-/
import Mathlib.Data.List.Basic
import Mathlib.Tactic.Common

namespace Lib

universe u

/-- How a function fails. -/
inductive Failure (E : Type u) where
  /-- An index or a slice out of range, or code that was taken to be unreachable. -/
  | panic
  /-- The bound on the rounds of a loop is used up. -/
  | spent
  /-- An error that is returned. -/
  | err (e : E)
  deriving DecidableEq

/-- What a function ends with. -/
abbrev Outcome (E A : Type) := Except (Failure E) A

/-- An `int` of 64 bits, from the number that arithmetic gave. -/
@[irreducible]
def wrap (x : Int) : Int := x.bmod 18446744073709551616

theorem wrap_eq {x : Int} (h : -9223372036854775808 ≤ x) (h' : x < 9223372036854775808) :
    wrap x = x := by
  simp only [wrap, Int.bmod]
  omega

theorem wrap_neg {x : Int} (h : 9223372036854775808 ≤ x) (h' : x < 18446744073709551616) :
    wrap x < 0 := by
  simp only [wrap, Int.bmod]
  omega

theorem wrap_lt (x : Int) : wrap x < 9223372036854775808 := by
  simp only [wrap, Int.bmod]
  omega

variable {E A B C D : Type}

/-! ## Reading -/

/-- `d[i]`. -/
def index (d : List A) (i : Nat) : Outcome E A :=
  match d[i]? with
  | some x => .ok x
  | none => .error .panic

/-- `d[i:j]`. -/
def slice (d : List A) (i j : Nat) : Outcome E (List A) :=
  if i ≤ j ∧ j ≤ d.length then .ok ((d.take j).drop i) else .error .panic

/-- The outcome is that of a function without indices, up to `R`. -/
def Matches (R : A → B → Prop) : Outcome E A → Option B → Prop
  | .ok a, some b => R a b
  | .error (.err _), none => True
  | _, _ => False

section

variable {R : A → B → Prop} {S : C → D → Prop} {x : Outcome E A} {y : Option B}

theorem matches_err (R : A → B → Prop) (e : E) : Matches R (.error (.err e)) none := trivial

theorem Matches.bind {f : A → Outcome E C} {g : B → Option D} (h : Matches R x y)
    (hf : ∀ a b, x = .ok a → y = some b → R a b → Matches S (f a) (g b)) :
    Matches S (x >>= f) (y >>= g) := by
  match x, y, h with
  | .ok a, some b, h => exact hf a b rfl rfl h
  | .error (.err e), none, _ => exact matches_err S e

/-- A check that returns an error where the other side has no value. -/
theorem Matches.check {c : Prop} [Decidable c] {e : E} (hc : c → y = none)
    (h : ¬ c → Matches R x y) : Matches R (if c then .error (.err e) else x) y := by
  by_cases hif : c
  · rw [if_pos hif, hc hif]
    exact matches_err R e
  · rw [if_neg hif]
    exact h hif

/-- The function returns: a value, or an error. -/
theorem Matches.returns (h : Matches R x y) : (∃ a, x = .ok a) ∨ ∃ e, x = .error (.err e) := by
  match x, y, h with
  | .ok a, some _, _ => exact .inl ⟨a, rfl⟩
  | .error (.err e), none, _ => exact .inr ⟨e, rfl⟩

theorem matches_eq_iff {x : Outcome E A} {y : Option A} (h : Matches Eq x y) (a : A) :
    x = .ok a ↔ y = some a := by
  match x, y, h with
  | .ok _, some _, rfl => simp
  | .error (.err _), none, _ => simp

end

theorem ok_bind (a : A) (f : A → Outcome E C) : ((.ok a : Outcome E A) >>= f) = f a := rfl

theorem index_of_lt {d : List A} {i : Nat} (h : i < d.length) :
    (index d i : Outcome E A) = .ok d[i] := by
  rw [index, List.getElem?_eq_getElem h]

theorem slice_of_le {d : List A} {i j : Nat} (h : i ≤ j) (h' : j ≤ d.length) :
    (slice d i j : Outcome E (List A)) = .ok ((d.take j).drop i) :=
  if_pos ⟨h, h'⟩

theorem slice_to_end {d : List A} {i : Nat} (h : i ≤ d.length) :
    (slice d i d.length : Outcome E (List A)) = .ok (d.drop i) := by
  rw [slice_of_le h (Nat.le_refl _), List.take_length]

/-! ## Writing -/

/-- A buffer and the index at which it is written next. -/
structure Cursor (A : Type) where
  dAtA : List A
  i : Nat

/-- Code that writes at the cursor. -/
abbrev Writer (E A : Type) := StateT (Cursor A) (Except (Failure E))

/-- `dAtA[i] = x; i++`. -/
def put (x : A) : Writer E A Unit := fun c =>
  if c.i < c.dAtA.length then .ok ((), ⟨c.dAtA.set c.i x, c.i + 1⟩) else .error .panic

/-- `i += copy(dAtA[i:], b)`, which copies no more than there is room for. -/
def copyIn (b : List A) : Writer E A Unit := fun c =>
  if c.i ≤ c.dAtA.length then
    let n := min b.length (c.dAtA.length - c.i)
    .ok ((), ⟨c.dAtA.take c.i ++ b.take n ++ c.dAtA.drop (c.i + n), c.i + n⟩)
  else .error .panic

/-- A function that fills a slice from its start and returns the number of bytes written. -/
def Writer.fill (f : Writer E A Unit) (dAtA : List A) : Outcome E (List A × Nat) :=
  match f ⟨dAtA, 0⟩ with
  | .ok (_, c) => .ok (c.dAtA, c.i)
  | .error e => .error e

/-- `n, err := f(dAtA[i:]); i += n`: the slice shares its memory with the buffer. -/
def within (f : List A → Outcome E (List A × Nat)) : Writer E A Unit := fun c =>
  if c.i ≤ c.dAtA.length then
    match f (c.dAtA.drop c.i) with
    | .ok (rest, n) => .ok ((), ⟨c.dAtA.take c.i ++ rest, c.i + n⟩)
    | .error e => .error e
  else .error .panic

/-- Code under a condition. -/
def when (c : Prop) [Decidable c] (f : Writer E A Unit) : Writer E A Unit :=
  if c then f else pure ()

/-- The code writes `bs` at the cursor and leaves the rest of the buffer as it was. -/
def Writes (f : Writer E A Unit) (bs : List A) : Prop :=
  ∀ front back : List A, bs.length ≤ back.length → f ⟨front ++ back, front.length⟩ =
    .ok ((), ⟨front ++ bs ++ back.drop bs.length, (front ++ bs).length⟩)

section

variable {f g : Writer E A Unit} {a b : List A}

theorem writes_pure : Writes (pure () : Writer E A Unit) [] := by
  intro front back _
  simp only [List.append_nil, List.length_nil, List.drop_zero]
  rfl

theorem writes_bind (hf : Writes f a) (hg : Writes g b) : Writes (f >>= fun _ => g) (a ++ b) := by
  intro front back hle
  rw [List.length_append] at hle
  have hfirst := hf front back (by omega)
  have hsecond := hg (front ++ a) (back.drop a.length) (by rw [List.length_drop]; omega)
  show (f ⟨front ++ back, front.length⟩ >>= fun p => g p.2) = _
  rw [hfirst]
  show g ⟨front ++ a ++ back.drop a.length, (front ++ a).length⟩ = _
  rw [hsecond, List.drop_drop, List.append_assoc front, ← List.length_append]

theorem writes_put (x : A) : Writes (put x : Writer E A Unit) [x] := by
  intro front back hle
  cases back with
  | nil => exact absurd hle (by simp)
  | cons y back =>
      rw [put, if_pos (by simp)]
      simp

theorem writes_copyIn (bs : List A) : Writes (copyIn bs : Writer E A Unit) bs := by
  intro front back hle
  have hroom : min bs.length ((front ++ back).length - front.length) = bs.length := by
    rw [List.length_append]
    omega
  rw [copyIn, if_pos (by simp)]
  simp only [hroom]
  simp

theorem writes_within {h : List A → Outcome E (List A × Nat)}
    (hh : ∀ d, a.length ≤ d.length → h d = .ok (a ++ d.drop a.length, a.length)) :
    Writes (within h) a := by
  intro front back hle
  rw [within, if_pos (by simp)]
  simp only [List.drop_left, List.take_left, hh back hle]
  simp

theorem writes_when {c : Prop} [Decidable c] (h : c → Writes f a) :
    Writes (when c f) (if c then a else []) := by
  by_cases hc : c
  · rw [when, if_pos hc, if_pos hc]
    exact h hc
  · rw [when, if_neg hc, if_neg hc]
    exact writes_pure

theorem writes_forM {k : B → Writer E A Unit} {bytes : B → List A} :
    ∀ {l : List B}, (∀ x ∈ l, Writes (k x) (bytes x)) → Writes (l.forM k) (l.flatMap bytes)
  | [], _ => writes_pure
  | x :: l, h => by
      obtain ⟨hx, hl⟩ := List.forall_mem_cons.mp h
      rw [List.flatMap_cons]
      exact writes_bind hx (writes_forM hl)

/-- Filling a slice that is long enough. -/
theorem Writes.fill (h : Writes f a) {d : List A} (hd : a.length ≤ d.length) :
    f.fill d = .ok (a ++ d.drop a.length, a.length) := by
  have := h [] d hd
  simp only [List.nil_append, List.length_nil] at this
  rw [Writer.fill, this]

end

end Lib
