import Mathlib

/-!
# Two computations side by side

Two computations that may fail are related when their results are, whenever both have one (`Rel`),
or when besides both fail alike (`Lockstep`). The rules follow the shape of the programs: a result,
a sequence, and a choice. In the first case the two programs may have different conditions for a
choice, of which one implies the other.

## Main definitions

* `TwoRuns.Rel`, `TwoRuns.Lockstep`: the two relations.
-/

namespace TwoRuns

universe u v w

variable {ε : Type u} {α α' : Type v} {β β' : Type w}

/-- Whenever both computations have a result, the results are related. -/
def Rel (R : α → β → Prop) (x : Except ε α) (y : Except ε β) : Prop :=
  ∀ a b, x = .ok a → y = .ok b → R a b

namespace Rel

variable {R : α → β → Prop} {S : α' → β' → Prop} {x x' : Except ε α} {y y' : Except ε β}

theorem ok {a : α} {b : β} (h : R a b) : Rel R (.ok a : Except ε α) (.ok b) := by
  rintro _ _ ⟨⟩ ⟨⟩
  exact h

theorem error_left (e : ε) (y : Except ε β) : Rel R (.error e) y := by
  rintro _ _ ⟨⟩

theorem error_right (x : Except ε α) (e : ε) : Rel R x (.error e) := by
  rintro _ _ _ ⟨⟩

theorem mono {R' : α → β → Prop} (h : Rel R x y) (hR : ∀ a b, R a b → R' a b) : Rel R' x y :=
  fun a b ha hb => hR a b (h a b ha hb)

/-- Only the results of the first computation matter. -/
theorem of_left (h : ∀ a, x = .ok a → ∀ b, R a b) : Rel R x y := fun a b ha _ => h a ha b

theorem bind {f : α → Except ε α'} {g : β → Except ε β'} (h : Rel R x y)
    (hfg : ∀ a b, R a b → Rel S (f a) (g b)) : Rel S (x >>= f) (y >>= g) := by
  intro a' b' ha hb
  cases x with
  | error e => cases ha
  | ok a =>
    cases y with
    | error e => cases hb
    | ok b => exact hfg a b (h a b rfl rfl) a' b' ha hb

/-- A choice on two conditions of which the first implies the second. -/
theorem ite_of_imp {p p' : Prop} [Decidable p] [Decidable p'] (himp : p → p')
    (hthen : p → Rel R x y) (helse : ¬p' → Rel R x' y') (hsplit : ¬p → p' → Rel R x' y) :
    Rel R (if p then x else x') (if p' then y else y') := by
  by_cases hp : p
  · rw [if_pos hp, if_pos (himp hp)]
    exact hthen hp
  · rw [if_neg hp]
    by_cases hp' : p'
    · rw [if_pos hp']
      exact hsplit hp hp'
    · rw [if_neg hp']
      exact helse hp'

/-- A choice on two conditions of which the second implies the first. -/
theorem ite_of_imp' {p p' : Prop} [Decidable p] [Decidable p'] (himp : p' → p)
    (hthen : p' → Rel R x y) (helse : ¬p → Rel R x' y') (hsplit : p → ¬p' → Rel R x y') :
    Rel R (if p then x else x') (if p' then y else y') := by
  by_cases hp' : p'
  · rw [if_pos hp', if_pos (himp hp')]
    exact hthen hp'
  · rw [if_neg hp']
    by_cases hp : p
    · rw [if_pos hp]
      exact hsplit hp hp'
    · rw [if_neg hp]
      exact helse hp

theorem ite {p : Prop} [Decidable p] (hthen : p → Rel R x y) (helse : ¬p → Rel R x' y') :
    Rel R (if p then x else x') (if p then y else y') :=
  ite_of_imp id hthen helse fun h h' => absurd h' h

end Rel

/-- The computations fail alike, or both have results, which are related. -/
inductive Lockstep (R : α → β → Prop) : Except ε α → Except ε β → Prop
  | ok {a : α} {b : β} (h : R a b) : Lockstep R (.ok a) (.ok b)
  | error (e : ε) : Lockstep R (.error e) (.error e)

namespace Lockstep

variable {R : α → β → Prop} {S : α' → β' → Prop} {x x' : Except ε α} {y y' : Except ε β}

theorem refl (x : Except ε α) : Lockstep Eq x x := by
  cases x with
  | error e => exact .error e
  | ok a => exact .ok rfl

theorem eq {x y : Except ε α} (h : Lockstep Eq x y) : x = y := by
  cases h with
  | ok h => rw [h]
  | error e => rfl

theorem bind {f : α → Except ε α'} {g : β → Except ε β'} (h : Lockstep R x y)
    (hfg : ∀ a b, R a b → Lockstep S (f a) (g b)) : Lockstep S (x >>= f) (y >>= g) := by
  cases h with
  | ok h => exact hfg _ _ h
  | error e => exact .error e

theorem ite {p : Prop} [Decidable p] (hthen : p → Lockstep R x y)
    (helse : ¬p → Lockstep R x' y') :
    Lockstep R (if p then x else x') (if p then y else y') := by
  by_cases hp : p
  · rw [if_pos hp, if_pos hp]
    exact hthen hp
  · rw [if_neg hp, if_neg hp]
    exact helse hp

end Lockstep

end TwoRuns
