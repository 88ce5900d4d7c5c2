/-
BoltCpp/Lib/Tiling.lean

Ranges of addresses laid end to end.

`Tiles a rs b` says that the ranges `rs`, in this order, fill the addresses
from `a` to `b` without a gap or an overlap.  Tilings compose
(`tiles_append`, `tiles_flatMap_range`); their lengths add up to `b - a`
(`Tiles.total_eq`), and every address in between is in exactly one range
(`Tiles.existsUnique`).
-/
import Mathlib.Logic.ExistsUnique

namespace Tiling

/-- The `length` addresses from `start` on. -/
structure Range where
  start : Nat
  length : Nat
  deriving DecidableEq, Repr

namespace Range

/-- The first address behind the range. -/
def stop (r : Range) : Nat := r.start + r.length

instance : Membership Nat Range where
  mem r x := r.start ≤ x ∧ x < r.stop

end Range

/-- Each range starts where the one before it stops. -/
inductive Tiles : Nat → List Range → Nat → Prop
  | nil {a : Nat} : Tiles a [] a
  | cons {r : Range} {rs : List Range} {b : Nat} (hrs : Tiles r.stop rs b) :
      Tiles r.start (r :: rs) b

/-- The number of addresses in the ranges. -/
def total : List Range → Nat
  | [] => 0
  | r :: rs => r.length + total rs

variable {a b c : Nat} {rs ss : List Range}

@[simp] theorem tiles_nil : Tiles a [] b ↔ a = b := by
  constructor
  · rintro ⟨⟩
    rfl
  · rintro rfl
    exact .nil

@[simp] theorem tiles_cons {r : Range} :
    Tiles a (r :: rs) b ↔ r.start = a ∧ Tiles r.stop rs b := by
  constructor
  · rintro (- | hrs)
    exact ⟨rfl, hrs⟩
  · rintro ⟨rfl, hrs⟩
    exact .cons hrs

/-- One tiling behind the other. -/
theorem tiles_append (hrs : Tiles a rs b) (hss : Tiles b ss c) : Tiles a (rs ++ ss) c := by
  induction hrs with
  | nil => exact hss
  | cons _ ih => exact .cons (ih hss)

/-- Any number of them. -/
theorem tiles_flatMap_range (f : Nat → List Range) (off : Nat → Nat) {n : Nat}
    (h : ∀ i, i < n → Tiles (off i) (f i) (off (i + 1))) :
    Tiles (off 0) ((List.range n).flatMap f) (off n) := by
  induction n with
  | zero => exact .nil
  | succ n ih =>
      rw [List.range_succ, List.flatMap_append, List.flatMap_singleton]
      exact tiles_append (ih fun i hi => h i (by omega)) (h n (Nat.lt_succ_self n))

namespace Tiles

theorem total_eq (h : Tiles a rs b) : a + total rs = b := by
  induction h with
  | nil => rfl
  | cons _ ih =>
      rw [total]
      rw [Range.stop] at ih
      omega

/-- The ranges hold nothing in front of the tiling. -/
theorem le_of_mem (h : Tiles a rs b) {i : Nat} {r : Range} (hr : rs[i]? = some r) {x : Nat}
    (hx : x ∈ r) : a ≤ x := by
  induction h generalizing i with
  | nil => cases hr
  | @cons s rs b _ ih =>
      cases i with
      | zero =>
          obtain rfl : s = r := Option.some.inj hr
          exact hx.1
      | succ i => exact Nat.le_trans (Nat.le_add_right _ _) (ih hr)

/-- **Every address is in exactly one range.** -/
theorem existsUnique (h : Tiles a rs b) {x : Nat} (hax : a ≤ x) (hxb : x < b) :
    ∃! i : Nat, ∃ r, rs[i]? = some r ∧ x ∈ r := by
  induction h with
  | nil => omega
  | @cons r rs b hrest ih =>
      by_cases hx : x < r.stop
      · -- in the first range, and in front of all the others
        refine ⟨0, ⟨r, rfl, hax, hx⟩, ?_⟩
        rintro i ⟨s, hs, hsx⟩
        cases i with
        | zero => rfl
        | succ i => exact absurd hx (Nat.not_lt.mpr (hrest.le_of_mem hs hsx))
      · obtain ⟨i, ⟨s, hs, hsx⟩, hunique⟩ := ih (Nat.not_lt.mp hx) hxb
        refine ⟨i + 1, ⟨s, hs, hsx⟩, ?_⟩
        rintro j ⟨t, ht, htx⟩
        cases j with
        | zero =>
            obtain rfl : r = t := Option.some.inj ht
            exact absurd htx.2 hx
        | succ j => rw [hunique j ⟨t, ht, htx⟩]

end Tiles

end Tiling
