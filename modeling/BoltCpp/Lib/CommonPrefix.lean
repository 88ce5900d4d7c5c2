/-
BoltCpp/Lib/CommonPrefix.lean

The longest common prefix of two lists.

`IsLongest x y d` says that `x` and `y` agree in their first `d` places and in
no more.  That decides how the lists compare: they are equal if the prefix
exhausts both (`IsLongest.eq_iff`), and otherwise what comes next decides the
lexicographic order (`IsLongest.lt_iff`).
-/
import Mathlib.Data.List.Basic
import Mathlib.Data.List.Lex

namespace CommonPrefix

variable {α : Type*} {a b : α} {x y : List α} {d : Nat}

/-- The first `d` elements of `x` are there in `y`, and the other way round. -/
structure Shares (x y : List α) (d : Nat) : Prop where
  left : d ≤ x.length
  right : d ≤ y.length
  take : x.take d = y.take d

/-- `d` is the length of the longest common prefix. -/
structure IsLongest (x y : List α) (d : Nat) : Prop extends Shares x y d where
  longest : ∀ k, Shares x y k → k ≤ d

/-! ### Along the lists -/

theorem shares_zero (x y : List α) : Shares x y 0 :=
  ⟨Nat.zero_le _, Nat.zero_le _, by rw [List.take_zero, List.take_zero]⟩

theorem shares_cons : Shares (a :: x) (b :: y) (d + 1) ↔ a = b ∧ Shares x y d := by
  constructor
  · rintro ⟨hl, hr, htake⟩
    rw [List.take_succ_cons, List.take_succ_cons, List.cons.injEq] at htake
    exact ⟨htake.1, Nat.le_of_succ_le_succ hl, Nat.le_of_succ_le_succ hr, htake.2⟩
  · rintro ⟨rfl, hl, hr, htake⟩
    exact ⟨Nat.succ_le_succ hl, Nat.succ_le_succ hr, by
      rw [List.take_succ_cons, List.take_succ_cons, htake]⟩

theorem isLongest_nil_left (y : List α) : IsLongest [] y 0 :=
  ⟨shares_zero _ _, fun _ h => h.left⟩

theorem isLongest_nil_right (x : List α) : IsLongest x [] 0 :=
  ⟨shares_zero _ _, fun _ h => h.right⟩

/-- Lists that differ at once. -/
theorem isLongest_of_ne (h : a ≠ b) (x y : List α) : IsLongest (a :: x) (b :: y) 0 := by
  refine ⟨shares_zero _ _, fun k hk => ?_⟩
  cases k with
  | zero => exact Nat.le_refl 0
  | succ k => exact absurd (shares_cons.mp hk).1 h

/-- Lists that begin alike. -/
theorem isLongest_cons (h : IsLongest x y d) (a : α) : IsLongest (a :: x) (a :: y) (d + 1) := by
  refine ⟨shares_cons.mpr ⟨rfl, h.toShares⟩, fun k hk => ?_⟩
  cases k with
  | zero => exact Nat.zero_le _
  | succ k => exact Nat.succ_le_succ (h.longest k (shares_cons.mp hk).2)

/-! ### What the prefix decides -/

/-- The elements behind the prefix, where both lists have one, differ. -/
theorem IsLongest.next_ne (h : IsLongest x y d) (hx : x[d]? = some a) (hy : y[d]? = some b) :
    a ≠ b := by
  rintro rfl
  obtain ⟨hlx, rfl⟩ := List.getElem?_eq_some_iff.mp hx
  obtain ⟨hly, hab⟩ := List.getElem?_eq_some_iff.mp hy
  have hmore : Shares x y (d + 1) :=
    ⟨hlx, hly, by rw [List.take_succ_eq_append_getElem hlx, List.take_succ_eq_append_getElem hly,
      h.take, hab]⟩
  exact absurd (h.longest _ hmore) (Nat.not_succ_le_self d)

/-- Equal lists share everything. -/
theorem IsLongest.eq_iff (h : IsLongest x y d) : x = y ↔ d = x.length ∧ d = y.length := by
  constructor
  · rintro rfl
    have hall : x.length ≤ d := h.longest _ ⟨Nat.le_refl _, Nat.le_refl _, rfl⟩
    exact ⟨Nat.le_antisymm h.left hall, Nat.le_antisymm h.left hall⟩
  · rintro ⟨hx, hy⟩
    have htake := h.take
    rw [List.take_of_length_le (Nat.le_of_eq hx.symm),
      List.take_of_length_le (Nat.le_of_eq hy.symm)] at htake
    exact htake

/-- **The lexicographic order.**  A list is smaller if it ends with the common
prefix and the other one goes on, or if it goes on with a smaller element. -/
theorem IsLongest.lt_iff [Preorder α] (h : IsLongest x y d) :
    x < y ↔ (d = x.length ∧ d < y.length) ∨
      ∃ a b, x[d]? = some a ∧ y[d]? = some b ∧ a < b := by
  induction x generalizing y d with
  | nil =>
      obtain rfl : d = 0 := Nat.le_zero.mp h.left
      cases y <;> simp
  | cons a x ih =>
      cases y with
      | nil => simp
      | cons b y =>
          rw [List.cons_lt_cons_iff]
          cases d with
          | zero =>
              have hne : a ≠ b := h.next_ne rfl rfl
              simp [hne]
          | succ d =>
              obtain ⟨rfl, hd⟩ := shares_cons.mp h.toShares
              have hrest : IsLongest x y d := ⟨hd, fun k hk =>
                Nat.le_of_succ_le_succ (h.longest _ (shares_cons.mpr ⟨rfl, hk⟩))⟩
              simp only [lt_self_iff_false, false_or, true_and, ih hrest, List.length_cons,
                Nat.add_right_cancel_iff, Nat.add_lt_add_iff_right, List.getElem?_cons_succ]

end CommonPrefix
