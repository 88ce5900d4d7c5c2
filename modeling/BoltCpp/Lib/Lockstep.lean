/-
BoltCpp/Lib/Lockstep.lean

Two computations in lockstep.

`Lockstep R x y` says that `x` and `y` both return, with results related by
`R`, or both fail, and in the same way.  The rules follow the syntax of a
program: sequencing, the same computation on both sides, `if`.
-/
import Mathlib.Logic.Basic
import Mathlib.Tactic.TypeStar

universe u v w

/-- Both return related results, or both fail with the same error. -/
inductive Lockstep {ε : Type u} {α β : Type v} (R : α → β → Prop) :
    Except ε α → Except ε β → Prop
  | ok {a : α} {b : β} (h : R a b) : Lockstep R (.ok a) (.ok b)
  | error (e : ε) : Lockstep R (.error e) (.error e)

namespace Lockstep

variable {ε : Type u} {α β γ δ : Type v} {R : α → β → Prop} {Q : γ → δ → Prop}

/-- Sequencing, where the continuations take related results to lockstep. -/
theorem bind {x : Except ε α} {y : Except ε β} {f : α → Except ε γ} {g : β → Except ε δ}
    (h : Lockstep R x y) (hfg : ∀ a b, R a b → Lockstep Q (f a) (g b)) :
    Lockstep Q (x >>= f) (y >>= g) := by
  cases h with
  | ok hab => exact hfg _ _ hab
  | error e => exact .error e

/-- The same computation on both sides, in front of two others. -/
theorem bind_self {x : Except ε α} {f : α → Except ε γ} {g : α → Except ε δ}
    (h : ∀ a, x = .ok a → Lockstep Q (f a) (g a)) : Lockstep Q (x >>= f) (x >>= g) := by
  cases x with
  | ok a => exact h a rfl
  | error e => exact .error e

/-- Branching on the same condition. -/
theorem ite {c : Prop} [Decidable c] {x x' : Except ε α} {y y' : Except ε β}
    (h : c → Lockstep R x y) (h' : ¬ c → Lockstep R x' y') :
    Lockstep R (if c then x else x') (if c then y else y') := by
  by_cases hc : c
  · rw [if_pos hc, if_pos hc]
    exact h hc
  · rw [if_neg hc, if_neg hc]
    exact h' hc

theorem mono {R' : α → β → Prop} {x : Except ε α} {y : Except ε β} (h : Lockstep R x y)
    (hR : ∀ a b, R a b → R' a b) : Lockstep R' x y := by
  cases h with
  | ok hab => exact .ok (hR _ _ hab)
  | error e => exact .error e

/-- What cannot be told apart in the results cannot be told apart at all. -/
theorem map_eq {f : α → γ} {g : β → γ} {x : Except ε α} {y : Except ε β} (h : Lockstep R x y)
    (hfg : ∀ a b, R a b → f a = g b) : f <$> x = g <$> y := by
  cases h with
  | ok hab => exact congrArg Except.ok (hfg _ _ hab)
  | error e => rfl

end Lockstep
