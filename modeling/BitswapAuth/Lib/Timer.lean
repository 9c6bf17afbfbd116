/-
# `BitswapAuth.Lib.Timer` — a timer and its channel

A timer is set for something, be it a moment or a delay.  When it goes off it puts a value
into its channel, if that is empty: the channel has one place.

    stop, reset    leave the channel as it is
    fire           from being set to having a value in the channel
    take           the value is received

So a value may still be there that comes from an earlier setting.  It is known by what the
timer was set for.
-/
import Mathlib.Tactic.Common

namespace Lib

/-- What the timer is set for, and what it was set for when it put the value into its channel
that nobody has taken yet. -/
structure Timer (α : Type) where
  armed : Option α
  fired : Option α
  deriving DecidableEq

namespace Timer

variable {α : Type}

def new (a : α) : Timer α := ⟨some a, none⟩

/-- The timer is set no more; and whether it was. -/
def stop (t : Timer α) : Timer α × Bool := ({ t with armed := none }, t.armed.isSome)

def reset (t : Timer α) (a : α) : Timer α := { t with armed := some a }

/-- The timer goes off, if it is set. -/
def fire (t : Timer α) : Timer α := ⟨none, t.fired.or t.armed⟩

def take (t : Timer α) : Timer α := { t with fired := none }

/-- The timer is set, or its value waits to be received. -/
def Alive (t : Timer α) : Prop := t.armed.isSome = true ∨ t.fired.isSome = true

instance (t : Timer α) : Decidable t.Alive := inferInstanceAs (Decidable (_ ∨ _))

/-- The timer is not set while a value waits. -/
def Single (t : Timer α) : Prop := t.fired.isSome = true → t.armed = none

/-- The one value of the timer, in its channel or still to come, is for this. -/
def SetFor (t : Timer α) (a : α) : Prop := t = ⟨some a, none⟩ ∨ t = ⟨none, some a⟩

variable {t : Timer α} {a : α}

theorem alive_reset (t : Timer α) (a : α) : (t.reset a).Alive := .inl rfl

theorem alive_fire : t.fire.Alive ↔ t.Alive := by
  simp only [Alive, fire, Option.isSome_none, Option.isSome_or, Bool.or_eq_true,
    Bool.false_eq_true, false_or]
  exact or_comm

theorem single_fire (t : Timer α) : t.fire.Single := fun _ => rfl

/-- Stopping a timer with one value: it was set and is still now, or its value is in the
channel. -/
theorem SetFor.stop (h : t.SetFor a) :
    t.stop = (⟨none, none⟩, true) ∨ t.stop = (⟨none, some a⟩, false) := by
  rcases h with rfl | rfl
  · exact .inl rfl
  · exact .inr rfl

section

variable [LE α] [DecidableLE α]

/-- The timer goes off if it is set for a moment that has come. -/
def elapse (t : Timer α) (now : α) : Timer α :=
  match t.armed with
  | some deadline => if deadline ≤ now then t.fire else t
  | none => t

theorem elapse_cases (t : Timer α) (now : α) :
    (∃ deadline, t.armed = some deadline ∧ deadline ≤ now ∧
      t.elapse now = ⟨none, t.fired.or (some deadline)⟩) ∨ t.elapse now = t := by
  rw [elapse]
  split
  · rename_i deadline harmed
    split
    · rename_i hle
      exact .inl ⟨deadline, harmed, hle, by rw [fire, harmed]⟩
    · exact .inr rfl
  · exact .inr rfl

theorem SetFor.elapse (h : t.SetFor a) (now : α) : (t.elapse now).SetFor a := by
  rcases t.elapse_cases now with ⟨deadline, harmed, -, heq⟩ | heq
  · rcases h with rfl | rfl
    · cases harmed
      exact .inr heq
    · cases harmed
  · exact heq.symm ▸ h

end

end Timer

end Lib
