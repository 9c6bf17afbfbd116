/-
# `BitswapAuth.Lib.Records` — sequences of records

A parser takes a value from the head of its input and leaves the rest.  It is
`Local` when it looks at the bytes it takes and at no others: the same bytes are
then taken with the same value whatever follows.

`parseAll step s bs` takes records until none is left, each of which changes a state.
When the steps are local, parsing a concatenation is parsing its parts one after
the other (`parseAll_append`): the records of an input may be split anywhere
between two of them.
-/
import BitswapAuth.Lib.Varint

namespace Lib

variable {B A C S : Type}

/-- A value from the head of the input, and the rest. -/
abbrev Parser (B A : Type) := List B → Option (A × List B)

namespace Parser

/-- The parser depends on the bytes it takes and on no others. -/
def Local (p : Parser B A) : Prop :=
  ∀ bs a rest, p bs = some (a, rest) →
    ∃ used, bs = used ++ rest ∧ ∀ more, p (used ++ more) = some (a, more)

/-- One parser after another. -/
def seq (p : Parser B A) (f : A → Parser B C) : Parser B C := fun bs =>
  (p bs).bind fun x => f x.1 x.2

/-- The value is changed, or refused. -/
def filterMap (f : A → Option C) (p : Parser B A) : Parser B C := fun bs =>
  (p bs).bind fun x => (f x.1).map fun c => (c, x.2)

/-- The next `n` bytes. -/
def take (n : Nat) : Parser B (List B) := fun bs =>
  if n ≤ bs.length then some (bs.take n, bs.drop n) else none

variable {p : Parser B A}

theorem Local.append {bs rest : List B} {a : A} (h : Local p) (hp : p bs = some (a, rest))
    (more : List B) : p (bs ++ more) = some (a, rest ++ more) := by
  obtain ⟨used, rfl, hused⟩ := h _ _ _ hp
  rw [List.append_assoc, hused]

theorem Local.length_le {bs rest : List B} {a : A} (h : Local p) (hp : p bs = some (a, rest)) :
    rest.length ≤ bs.length := by
  obtain ⟨used, rfl, -⟩ := h _ _ _ hp
  rw [List.length_append]
  omega

/-- A parser that refuses the empty input takes at least one byte. -/
theorem Local.length_lt {bs rest : List B} {a : A} (h : Local p) (hnil : p [] = none)
    (hp : p bs = some (a, rest)) : rest.length < bs.length := by
  obtain ⟨used, rfl, hused⟩ := h _ _ _ hp
  have hne : used ≠ [] := by
    intro hnone
    have htook := hused []
    rw [hnone, List.nil_append, hnil] at htook
    exact absurd htook (by simp)
  have hpos := List.length_pos_iff.mpr hne
  rw [List.length_append]
  omega

theorem Local.seq {f : A → Parser B C} (hp : Local p) (hf : ∀ a, Local (f a)) :
    Local (p.seq f) := by
  intro bs c rest h
  obtain ⟨⟨a, mid⟩, hmid, hrest⟩ := Option.bind_eq_some_iff.mp h
  obtain ⟨used, rfl, hused⟩ := hp _ _ _ hmid
  obtain ⟨used', rfl, hused'⟩ := hf a _ _ _ hrest
  refine ⟨used ++ used', (List.append_assoc ..).symm, fun more => ?_⟩
  rw [Parser.seq, List.append_assoc, hused]
  exact hused' more

theorem Local.filterMap {f : A → Option C} (hp : Local p) : Local (p.filterMap f) := by
  intro bs c rest h
  obtain ⟨⟨a, mid⟩, hmid, hrest⟩ := Option.bind_eq_some_iff.mp h
  obtain ⟨c', hc', heq⟩ := Option.map_eq_some_iff.mp hrest
  obtain ⟨rfl, rfl⟩ := Prod.mk.inj heq
  obtain ⟨used, rfl, hused⟩ := hp _ _ _ hmid
  refine ⟨used, rfl, fun more => ?_⟩
  rw [Parser.filterMap, hused]
  simp only [Option.bind_some, hc', Option.map_some]

theorem filterMap_seq {D : Type} (p : Parser B A) (g : A → Parser B C) (f : C → Option D) :
    (p.seq g).filterMap f = p.seq fun a => (g a).filterMap f := by
  funext bs
  exact Option.bind_assoc ..

theorem take_append {n : Nat} {a rest : List B} (h : a.length = n) :
    take n (a ++ rest) = some (a, rest) := by
  subst h
  rw [take, if_pos (by simp)]
  simp

theorem local_take (n : Nat) : Local (take n : Parser B (List B)) := by
  intro bs a rest h
  rw [take] at h
  split at h
  · rename_i hle
    obtain ⟨rfl, rfl⟩ := Prod.mk.inj (Option.some.inj h)
    have hlen : (bs.take n).length = n := List.length_take_of_le hle
    exact ⟨bs.take n, (List.take_append_drop n bs).symm, fun more => take_append hlen⟩
  · exact absurd h (by simp)

theorem local_none : Local (fun _ => none : Parser B A) := fun _ _ _ h => absurd h (by simp)

theorem local_ite {c : Prop} [Decidable c] {q : Parser B A} (hp : c → Local p)
    (hq : ¬ c → Local q) : Local (if c then p else q) := by
  by_cases hc : c
  · rw [if_pos hc]
    exact hp hc
  · rw [if_neg hc]
    exact hq hc

theorem local_decode {w : Nat} (ss : List Nat) (acc : BitVec w) :
    Local (Varint.decode ss acc) := by
  induction ss generalizing acc with
  | nil => exact local_none
  | cons s ss ih =>
      intro bs v rest h
      cases bs with
      | nil => exact absurd h (by simp [Varint.decode])
      | cons b bs =>
          rw [Varint.decode] at h
          by_cases hb : b < 128
          · rw [if_pos hb] at h
            obtain ⟨rfl, rfl⟩ := Prod.mk.inj (Option.some.inj h)
            refine ⟨[b], rfl, fun more => ?_⟩
            rw [List.singleton_append, Varint.decode, if_pos hb]
          · rw [if_neg hb] at h
            obtain ⟨used, rfl, hused⟩ := ih _ _ _ _ h
            refine ⟨b :: used, rfl, fun more => ?_⟩
            rw [List.cons_append, Varint.decode, if_neg hb, hused]

end Parser

/-! ## Many records -/

/-- Records are taken until none is left, in at most `n` rounds. -/
def parseLoop (step : S → Parser B S) : (n : Nat) → S → List B → Option S
  | _, s, [] => some s
  | 0, _, _ :: _ => none
  | n + 1, s, b :: bs => (step s (b :: bs)).bind fun x => parseLoop step n x.1 x.2

/-- Records are taken until none is left. -/
def parseAll (step : S → Parser B S) (s : S) (bs : List B) : Option S :=
  parseLoop step bs.length s bs

/-- The steps take their records from the bytes of these alone, one byte at least. -/
structure Steps (step : S → Parser B S) : Prop where
  local_step : ∀ s, Parser.Local (step s)
  nil : ∀ s, step s [] = none

section

variable {step : S → Parser B S}

/-- As every round takes a byte, the number of rounds does not matter if it is large enough. -/
theorem parseLoop_eq (h : Steps step) : ∀ (n m : Nat) (s : S) (bs : List B), bs.length ≤ n →
    bs.length ≤ m → parseLoop step n s bs = parseLoop step m s bs
  | n, m, s, [], _, _ => by cases n <;> cases m <;> rfl
  | 0, _, _, _ :: _, hn, _ => absurd hn (by simp)
  | _ + 1, 0, _, _ :: _, _, hm => absurd hm (by simp)
  | n + 1, m + 1, s, b :: bs, hn, hm => by
      rw [parseLoop, parseLoop]
      cases hx : step s (b :: bs) with
      | none => rfl
      | some x =>
          have hlt := (h.local_step s).length_lt (h.nil s) hx
          rw [List.length_cons] at hlt hn hm
          exact parseLoop_eq h n m x.1 x.2 (by omega) (by omega)

theorem parseAll_nil (s : S) : parseAll step s [] = some s := rfl

/-- The first record, then the others. -/
theorem parseAll_step (h : Steps step) {s : S} {bs : List B} (hbs : bs ≠ []) :
    parseAll step s bs = (step s bs).bind fun x => parseAll step x.1 x.2 := by
  cases bs with
  | nil => exact absurd rfl hbs
  | cons b bs =>
      rw [parseAll, List.length_cons, parseLoop]
      cases hx : step s (b :: bs) with
      | none => rfl
      | some x =>
          have hlt := (h.local_step s).length_lt (h.nil s) hx
          rw [List.length_cons] at hlt
          exact parseLoop_eq h _ _ x.1 x.2 (by omega) (Nat.le_refl _)

/-- A record at the head changes the state, and the rest is parsed from there. -/
theorem parseAll_record (h : Steps step) {s s' : S} {r : List B}
    (hr : step s r = some (s', [])) (more : List B) :
    parseAll step s (r ++ more) = parseAll step s' more := by
  have hstep := (h.local_step s).append hr more
  have hne : r ++ more ≠ [] := by
    intro hnil
    rw [hnil, h.nil s] at hstep
    exact absurd hstep (by simp)
  rw [parseAll_step h hne, hstep]
  rfl

/-- **Parsing a concatenation** is parsing the second part from where the first has led. -/
theorem parseAll_append (h : Steps step) : ∀ (n : Nat) {s s' : S} {a : List B}, a.length ≤ n →
    parseAll step s a = some s' → ∀ b, parseAll step s (a ++ b) = parseAll step s' b
  | _, s, s', [], _, ha, b => by
      have hs := Option.some.inj ha
      rw [hs, List.nil_append]
  | 0, _, _, x :: a, hn, _, _ => absurd hn (by simp)
  | n + 1, s, s', x :: a, hn, ha, b => by
      rw [parseAll_step h (by simp)] at ha
      obtain ⟨⟨s₁, rest⟩, hstep, hrest⟩ := Option.bind_eq_some_iff.mp ha
      have hlt := (h.local_step s).length_lt (h.nil s) hstep
      rw [List.length_cons] at hlt hn
      rw [parseAll_step h (by simp), (h.local_step s).append hstep b]
      exact parseAll_append h n (show rest.length ≤ n by omega) hrest b

end

end Lib
