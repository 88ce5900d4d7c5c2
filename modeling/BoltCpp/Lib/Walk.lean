/-
BoltCpp/Lib/Walk.lean

Following a successor to the end.

`walk` collects what a partial successor function leads to, from a first
element on until there is no next one.  If the function takes every element of
a list to the one behind it, the walk from any element is the rest of the list
(`walk_eq`): each element once, in order, and no more.
-/
import Mathlib.Data.List.Basic

namespace Walk

variable {ε α : Type*} {outOfFuel : ε} {next : α → Except ε (Option α)}

def walk (outOfFuel : ε) (next : α → Except ε (Option α)) : Nat → α → Except ε (List α)
  | 0, _ => .error outOfFuel
  | fuel + 1, a =>
      match next a with
      | .error e => .error e
      | .ok none => .ok [a]
      | .ok (some b) => (walk outOfFuel next fuel b).map (a :: ·)

/-- `next` goes through the list. -/
def Follows (next : α → Except ε (Option α)) (xs : List α) : Prop :=
  ∀ i a, xs[i]? = some a → next a = .ok xs[i + 1]?

theorem Follows.tail {a : α} {xs : List α} (h : Follows next (a :: xs)) : Follows next xs :=
  fun i => h (i + 1)

/-- **The walk from the first element is the list.** -/
theorem walk_eq {xs : List α} :
    ∀ {a : α} {fuel : Nat}, Follows next (a :: xs) → xs.length < fuel →
      walk outOfFuel next fuel a = .ok (a :: xs) := by
  induction xs with
  | nil =>
      intro a fuel h hfuel
      obtain ⟨fuel, rfl⟩ := Nat.exists_eq_succ_of_ne_zero (Nat.ne_of_gt hfuel)
      rw [walk, h 0 a rfl]
      rfl
  | cons b xs ih =>
      intro a fuel h hfuel
      obtain ⟨fuel, rfl⟩ := Nat.exists_eq_succ_of_ne_zero (Nat.ne_of_gt (Nat.zero_lt_of_lt hfuel))
      have hnext : next a = .ok (some b) := h 0 a rfl
      simp only [walk, hnext, ih h.tail (Nat.lt_of_succ_lt_succ hfuel)]
      rfl

end Walk
