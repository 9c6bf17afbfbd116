/-
# `BitswapAuth.Lib.Run` — runs of a step function, and runs under a condition

A system is a step function on a state; a run is a list of actions.  Two
predicates on runs carry everything that is stated later:

    Always step P s as     P holds in every state the run passes through
    Meets step ok s as     every action is taken in a state that allows it

`run_invariant` is the induction for an unconditional invariant and
`always_of_meets` the one for an invariant that needs the condition.  When a
step that breaks the condition also breaks the property, the condition is exact:
`always_iff_meets`.  `meets_of_meets` goes from one condition to another, and
`run_simulates` from one system to another.  Loops that go through
keys one by one have `foldl_touch` and `foldl_own`, loops that may fail
`foldlM_invariant` and `foldlM_store`; `LogsChanges` is for the log of a level that
goes up and down.
-/
import Mathlib.Logic.Function.Iterate
import Mathlib.Tactic.Common

namespace Lib

universe u v

variable {S : Type u} {A : Type v}

/-- The state after a run. -/
def run (step : S → A → S) (s : S) (as : List A) : S := as.foldl step s

/-- `P` holds in every state of the run, the first and the last included. -/
def Always (step : S → A → S) (P : S → Prop) : S → List A → Prop
  | s, [] => P s
  | s, a :: as => P s ∧ Always step P (step s a) as

/-- Every action of the run is allowed in the state it is taken in. -/
def Meets (step : S → A → S) (ok : S → A → Prop) : S → List A → Prop
  | _, [] => True
  | s, a :: as => ok s a ∧ Meets step ok (step s a) as

section

variable {step : S → A → S} {I P : S → Prop} {ok : S → A → Prop}

instance decidableAlways [DecidablePred P] :
    (s : S) → (as : List A) → Decidable (Always step P s as)
  | s, [] => inferInstanceAs (Decidable (P s))
  | s, a :: as =>
      have := decidableAlways (step s a) as
      inferInstanceAs (Decidable (P s ∧ Always step P (step s a) as))

instance decidableMeets [∀ s a, Decidable (ok s a)] :
    (s : S) → (as : List A) → Decidable (Meets step ok s as)
  | _, [] => .isTrue trivial
  | s, a :: as =>
      have := decidableMeets (step s a) as
      inferInstanceAs (Decidable (ok s a ∧ Meets step ok (step s a) as))

theorem run_append (s : S) (as bs : List A) :
    run step s (as ++ bs) = run step (run step s as) bs :=
  List.foldl_append

theorem meets_append (s : S) (as bs : List A) :
    Meets step ok s (as ++ bs) ↔ Meets step ok s as ∧ Meets step ok (run step s as) bs := by
  induction as generalizing s with
  | nil => simp [Meets, run]
  | cons a as ih =>
      show ok s a ∧ Meets step ok (step s a) (as ++ bs) ↔ _
      rw [ih, ← and_assoc]
      rfl

/-- Every action is allowed where the run has come to when it is taken. -/
theorem meets_iff_forall_append (as : List A) (s : S) :
    Meets step ok s as ↔ ∀ bs a cs, as = bs ++ a :: cs → ok (run step s bs) a := by
  induction as generalizing s with
  | nil =>
      refine ⟨fun _ bs a cs h => ?_, fun _ => trivial⟩
      exact absurd h (by simp)
  | cons b as ih =>
      constructor
      · intro h bs a cs heq
        cases bs with
        | nil =>
            obtain ⟨rfl, -⟩ := List.cons.inj heq
            exact h.1
        | cons b' bs =>
            obtain ⟨rfl, htail⟩ := List.cons.inj heq
            exact (ih (step s b)).mp h.2 bs a cs htail
      · intro h
        refine ⟨h [] b as rfl, (ih (step s b)).mpr fun bs a cs heq => ?_⟩
        exact h (b :: bs) a cs (congrArg (b :: ·) heq)

/-- An invariant every step keeps holds after every run. -/
theorem run_invariant (hstep : ∀ s a, I s → I (step s a)) :
    ∀ (as : List A) {s : S}, I s → I (run step s as)
  | [], _, h => h
  | a :: as, s, h => run_invariant hstep as (hstep s a h)

/-- What holds between two systems and is kept when both take a step holds after every
run. -/
theorem run_simulates {T : Type u} {step' : T → A → T} {R : S → T → Prop}
    (hstep : ∀ s t a, R s t → R (step s a) (step' t a)) :
    ∀ (as : List A) {s : S} {t : T}, R s t → R (run step s as) (run step' t as)
  | [], _, _, h => h
  | a :: as, s, t, h => run_simulates hstep as (hstep s t a h)

/-- What every step reflects, the whole run reflects. -/
theorem foldl_reflect (hstep : ∀ s a, P (step s a) → P s) :
    ∀ (as : List A) {s : S}, P (as.foldl step s) → P s
  | [], _, h => h
  | a :: as, s, h => hstep s a (foldl_reflect hstep as h)

/-- What no round of a loop changes, the loop does not change. -/
theorem foldl_keeps {V : Type v} (obs : S → V) {f : S → A → S}
    (hf : ∀ s a, obs (f s a) = obs s) : ∀ (l : List A) (s : S), obs (l.foldl f s) = obs s
  | [], _ => rfl
  | a :: l, s => (foldl_keeps obs hf l (f s a)).trans (hf s a)

/-- A loop whose rounds make one and the same change to what is seen, or none: the change
is made once for each round that makes it. -/
theorem foldl_iterate {V : Type v} (obs : S → V) (g : V → V) (hit : A → Bool) {f : S → A → S}
    (hf : ∀ s a, obs (f s a) = if hit a then g (obs s) else obs s) :
    ∀ (l : List A) (s : S), obs (l.foldl f s) = g^[l.countP hit] (obs s)
  | [], _ => rfl
  | a :: l, s => by
      rw [List.foldl_cons, foldl_iterate obs g hit hf l, hf, List.countP_cons]
      cases hit a with
      | true => exact (Function.iterate_succ_apply g _ _).symm
      | false => rfl

/-- A loop that changes what is seen of one key a round, by a change that is the
same when made twice: of the keys gone through that change is seen, of the
others nothing. -/
theorem foldl_touch {K : Type u} {V : Type v} [DecidableEq K] (obs : S → K → Option V)
    (g : K → V → V) {f : S → K → S}
    (hf : ∀ s a k, obs (f s a) k = if k = a then (obs s k).map (g k) else obs s k)
    (hg : ∀ k x, g k (g k x) = g k x) :
    ∀ (l : List K) (s : S) (k : K),
      obs (l.foldl f s) k = if k ∈ l then (obs s k).map (g k) else obs s k
  | [], s, k => by simp
  | a :: l, s, k => by
      rw [List.foldl_cons, foldl_touch obs g hf hg l, hf]
      by_cases ha : k = a
      · subst ha
        have hgg : g k ∘ g k = g k := funext (hg k)
        simp [hgg]
      · simp [ha]

/-- A loop whose rounds each change what is seen of their own key alone changes nothing
of a key that no round has. -/
theorem foldl_elsewhere {K : Type u} {V : Type v} (obs : S → V) (key : A → K) {k : K}
    {f : S → A → S} (hf : ∀ s a, key a ≠ k → obs (f s a) = obs s) :
    ∀ (l : List A) (s : S), k ∉ l.map key → obs (l.foldl f s) = obs s
  | [], _, _ => rfl
  | a :: l, s, hk => by
      rw [List.map_cons, List.mem_cons, not_or] at hk
      rw [List.foldl_cons, foldl_elsewhere obs key hf l _ hk.2, hf s a (Ne.symm hk.1)]

/-- Such a loop with all keys different, seen at the key of one round: it is that round
alone, from where everything looks as at the start. -/
theorem foldl_own {K : Type u} {V : Type v} (obs : S → V) (key : A → K) {f : S → A → S}
    {l : List A} (hnd : (l.map key).Nodup) {a : A} (ha : a ∈ l)
    (hf : ∀ s b, key b ≠ key a → obs (f s b) = obs s) (s : S) :
    ∃ s', obs s' = obs s ∧ obs (l.foldl f s) = obs (f s' a) := by
  obtain ⟨l₁, l₂, rfl⟩ := List.append_of_mem ha
  rw [List.map_append, List.map_cons, List.perm_middle.nodup_iff, List.nodup_cons,
    List.mem_append, not_or] at hnd
  refine ⟨l₁.foldl f s, foldl_elsewhere obs key hf l₁ s hnd.1.1, ?_⟩
  rw [List.foldl_append, List.foldl_cons]
  exact foldl_elsewhere obs key hf l₂ _ hnd.1.2

theorem Always.last : ∀ {as : List A} {s : S}, Always step P s as → P (run step s as)
  | [], _, h => h
  | a :: as, s, h => by
      have h' : Always step P (step s a) as := h.2
      exact h'.last

theorem Always.head : ∀ {as : List A} {s : S}, Always step P s as → P s
  | [], _, h => h
  | _ :: _, _, h => h.1

/-- In every state of a run of allowed steps the invariant's consequence holds. -/
theorem always_of_meets (himp : ∀ s, I s → P s) (hstep : ∀ s a, I s → ok s a → I (step s a)) :
    ∀ (as : List A) {s : S}, I s → Meets step ok s as → Always step P s as
  | [], _, h, _ => himp _ h
  | a :: as, s, h, hm => ⟨himp s h, always_of_meets himp hstep as (hstep s a h hm.1) hm.2⟩

/-- Under an invariant that the steps allowed by one condition keep, a run that meets it meets
every condition that the invariant answers for. -/
theorem meets_of_meets {ok' : S → A → Prop} (himp : ∀ s a, I s → ok' s a)
    (hstep : ∀ s a, I s → ok s a → I (step s a)) :
    ∀ (as : List A) {s : S}, I s → Meets step ok s as → Meets step ok' s as
  | [], _, _, _ => trivial
  | a :: as, s, h, hm => ⟨himp s a h, meets_of_meets himp hstep as (hstep s a h hm.1) hm.2⟩

/-- **The condition is exact.**  If an allowed step keeps the invariant and a
step that is not allowed loses the property, then the property holds all along
a run just when every step of it is allowed. -/
theorem always_iff_meets (himp : ∀ s, I s → P s) (hstep : ∀ s a, I s → ok s a → I (step s a))
    (hbreak : ∀ s a, I s → ¬ ok s a → ¬ P (step s a)) :
    ∀ (as : List A) {s : S}, I s → (Always step P s as ↔ Meets step ok s as)
  | [], _, h => ⟨fun _ => trivial, fun _ => himp _ h⟩
  | a :: as, s, h => by
      by_cases hok : ok s a
      · have ih := always_iff_meets himp hstep hbreak as (hstep s a h hok)
        exact ⟨fun ha => ⟨hok, ih.mp ha.2⟩, fun hm => ⟨himp s h, ih.mpr hm.2⟩⟩
      · exact ⟨fun ha => absurd ha.2.head (hbreak s a h hok), fun hm => absurd hm.1 hok⟩

end

/-! ## Loops that may fail -/

section

variable {E : Type u} {α β : Type v}

/-- A computation in two parts succeeds just when both do. -/
theorem bind_eq_ok {x : Except E α} {f : α → Except E β} {b : β} :
    x >>= f = .ok b ↔ ∃ a, x = .ok a ∧ f a = .ok b := by
  cases x with
  | error e =>
      constructor
      · intro h; cases h
      · rintro ⟨a, h, -⟩; cases h
  | ok a =>
      constructor
      · intro h; exact ⟨a, rfl, h⟩
      · rintro ⟨a', h, h'⟩; cases h; exact h'

/-- What every round that succeeds keeps, a loop that succeeds keeps. -/
theorem foldlM_invariant {f : β → α → Except E β} {I : β → Prop}
    (hf : ∀ s a s', I s → f s a = .ok s' → I s') :
    ∀ (l : List α) {s s' : β}, I s → l.foldlM f s = .ok s' → I s'
  | [], s, s', hI, h => by
      cases h
      exact hI
  | a :: l, s, s', hI, h => by
      rw [List.foldlM_cons, bind_eq_ok] at h
      obtain ⟨s₁, h₁, h⟩ := h
      exact foldlM_invariant hf l (hf s a s₁ hI h₁) h

/-- A loop that stores every item under a key of its own, in a table where the key
is new: it succeeds, and the table has what it had and the items. -/
theorem foldlM_store {K V : Type v} [DecidableEq K] (obs : β → K → Option V) (key : α → K)
    (val : α → V) {f : β → α → Except E β} {I : β → Prop} {Q : α → Prop}
    (hf : ∀ s a, I s → Q a → obs s (key a) = none →
      ∃ s', f s a = .ok s' ∧ I s' ∧
        ∀ k, obs s' k = if k = key a then some (val a) else obs s k) :
    ∀ (l : List α) {s : β}, (l.map key).Nodup → I s → (∀ a ∈ l, Q a ∧ obs s (key a) = none) →
      ∃ s', l.foldlM f s = .ok s' ∧ I s' ∧
        ∀ k v, obs s' k = some v ↔ obs s k = some v ∨ ∃ a ∈ l, key a = k ∧ val a = v
  | [], s, _, hI, _ => ⟨s, rfl, hI, by simp⟩
  | a :: l, s, hnd, hI, hl => by
      obtain ⟨hne, hnd⟩ := List.nodup_cons.mp hnd
      obtain ⟨⟨hQ, hnew⟩, hl⟩ := List.forall_mem_cons.mp hl
      have hne : ∀ b ∈ l, key b ≠ key a := fun b hb he => hne (List.mem_map.mpr ⟨b, hb, he⟩)
      obtain ⟨s₁, hs₁, hI₁, hobs₁⟩ := hf s a hI hQ hnew
      obtain ⟨s', hs', hI', hobs'⟩ := foldlM_store obs key val hf l hnd hI₁ fun b hb =>
        ⟨(hl b hb).1, by rw [hobs₁, if_neg (hne b hb)]; exact (hl b hb).2⟩
      refine ⟨s', by rw [List.foldlM_cons, hs₁]; exact hs', hI', fun k v => ?_⟩
      rw [hobs', hobs₁]
      simp only [List.mem_cons, exists_eq_or_imp]
      by_cases hk : k = key a
      · subst hk
        rw [if_pos rfl, hnew]
        simp
      · rw [if_neg hk]
        simp [Ne.symm hk]

end

/-! ## Lists with one place changed -/

section

variable {α : Type u} {l : List α} {i : Nat} {f : α → α} {x : α}

/-- A member of the changed list is an old one, changed if it is at the place. -/
theorem mem_modify : x ∈ l.modify i f ↔ ∃ j y, l[j]? = some y ∧ x = if i = j then f y else y := by
  rw [List.mem_iff_getElem?]
  refine exists_congr fun j => ?_
  rw [List.getElem?_modify]
  constructor
  · intro h
    obtain ⟨y, hy, rfl⟩ := Option.map_eq_some_iff.mp h
    exact ⟨y, hy, rfl⟩
  · rintro ⟨y, hy, rfl⟩
    rw [hy]
    rfl

/-- What a change keeps of every element, the changed list has of its members. -/
theorem forall_mem_modify {P : α → Prop} (h : ∀ y ∈ l, P y) (hf : ∀ y, l[i]? = some y → P (f y)) :
    ∀ y ∈ l.modify i f, P y := by
  intro y hy
  obtain ⟨j, z, hz, rfl⟩ := mem_modify.mp hy
  split
  · rename_i hij
    subst hij
    exact hf z hz
  · exact h z (List.mem_of_getElem? hz)

/-- A property that a change neither makes nor breaks holds of some member of the
changed list if it did before. -/
theorem exists_mem_modify {P : α → Prop} (hf : ∀ y, l[i]? = some y → (P (f y) ↔ P y)) :
    (∃ y ∈ l.modify i f, P y) ↔ ∃ y ∈ l, P y := by
  constructor
  · rintro ⟨y, hy, hP⟩
    obtain ⟨j, z, hz, rfl⟩ := mem_modify.mp hy
    refine ⟨z, List.mem_of_getElem? hz, ?_⟩
    split at hP
    · rename_i hij
      subst hij
      exact (hf z hz).mp hP
    · exact hP
  · rintro ⟨y, hy, hP⟩
    obtain ⟨j, hj⟩ := List.mem_iff_getElem?.mp hy
    refine ⟨if i = j then f y else y, mem_modify.mpr ⟨j, y, hj, rfl⟩, ?_⟩
    split
    · rename_i hij
      subst hij
      exact (hf y hj).mpr hP
    · exact hP

end

/-! ## Logs of a level that goes up and down -/

/-- The entries take turns, beginning with the given one. -/
def Alternates : Bool → List Bool → Prop
  | _, [] => True
  | b, x :: xs => x = b ∧ Alternates (!b) xs

/-- The log has each change of a level that is down at first, and the level is now as
given. -/
structure LogsChanges (xs : List Bool) (level : Bool) : Prop where
  alternates : Alternates true xs
  last : xs.getLast?.getD false = level

theorem LogsChanges.nil : LogsChanges [] false := ⟨trivial, rfl⟩

theorem LogsChanges.append {xs : List Bool} {level : Bool} (h : LogsChanges xs level) :
    LogsChanges (xs ++ [!level]) (!level) := by
  obtain ⟨halt, rfl⟩ := h
  refine ⟨?_, by simp⟩
  -- with a list that may begin with either, a log that is empty is at the level before it
  have hgen : ∀ (b : Bool) (xs : List Bool), Alternates b xs →
      Alternates b (xs ++ [!(xs.getLast?.getD !b)]) := by
    intro b xs
    induction xs generalizing b with
    | nil => simp [Alternates]
    | cons x xs ih =>
        rintro ⟨rfl, hxs⟩
        refine ⟨rfl, ?_⟩
        have h := ih (!x) hxs
        rw [Bool.not_not] at h
        cases xs with
        | nil => exact h
        | cons y ys =>
            rw [List.getLast?_cons_cons]
            cases hz : (y :: ys).getLast? with
            | none => simp at hz
            | some z =>
                rw [hz] at h
                exact h
  exact hgen true xs halt

end Lib
