/-
BoltCpp/Lib/RangeMerge.lean

Merging two adjacent ranges of a sequence.

`Permutes` says that a merge only moves elements around, `Merges` that it is
also as good as its input: the result is ascending exactly when both ranges
were.  The second half of that holds because a merge keeps the order inside
each range.  `merge_merges` has the ordinary stable merge as an example.
-/
import Mathlib.Data.List.Sort

namespace RangeMerge

variable {α : Type*}

/-- A merge of two adjacent ranges, given and returned as lists. -/
abbrev Merge (α : Type*) := List α → List α → List α

/-- The result has the elements of both ranges. -/
def Permutes (merge : Merge α) : Prop :=
  ∀ l r, (merge l r).Perm (l ++ r)

/-- Ascending, with repetitions. -/
abbrev Ascending [LE α] (xs : List α) : Prop := xs.Pairwise (· ≤ ·)

/-- The result is ascending exactly when both ranges are. -/
structure Merges [LE α] (merge : Merge α) : Prop where
  permutes : Permutes merge
  ascending_iff : ∀ l r, Ascending (merge l r) ↔ Ascending l ∧ Ascending r

/-! ### The stable merge -/

variable [LinearOrder α]

/-- Merge from the front, the left range first among equals. -/
def merge (l r : List α) : List α := l.merge r fun x y => decide (x ≤ y)

theorem sublist_merge_left (l r : List α) : l.Sublist (merge l r) := by
  induction l generalizing r with
  | nil => exact List.nil_sublist _
  | cons x l ih =>
      induction r with
      | nil => rw [merge, List.merge_right]
      | cons y r ih' =>
          rw [merge, List.cons_merge_cons]
          split
          · exact (ih (y :: r)).cons_cons x
          · exact ih'.cons y

theorem sublist_merge_right (l r : List α) : r.Sublist (merge l r) := by
  induction l generalizing r with
  | nil => rw [merge, List.nil_merge]
  | cons x l ih =>
      induction r with
      | nil => exact List.nil_sublist _
      | cons y r ih' =>
          rw [merge, List.cons_merge_cons]
          split
          · exact (ih (y :: r)).cons x
          · exact ih'.cons_cons y

/-- The stable merge merges. -/
theorem merge_merges : Merges (α := α) merge where
  permutes _ _ := List.merge_perm_append _
  ascending_iff l r := by
    constructor
    · intro h
      exact ⟨h.sublist (sublist_merge_left l r), h.sublist (sublist_merge_right l r)⟩
    · rintro ⟨hl, hr⟩
      exact hl.merge hr

end RangeMerge
