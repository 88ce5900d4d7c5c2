/-
BoltCpp/SliceOrder.lean

The comparisons of slices (`slice.h`) agree.

`operator==`, `operator<`, `compare` and `difference_offset` are written
separately.  The first two are equality and the lexicographic order
(`Slice.beq_iff`, `Slice.lt_iff`), `compare` has their sign, and
`difference_offset` is the longest common prefix, from which the others can be
read off.  `comparisons_agree` puts this together.
-/
import BoltCpp.Slice
import BoltCpp.Lib.CommonPrefix

namespace BoltCpp

open CommonPrefix

namespace Slice

/-! ### The operators -/

theorem lt_self (x : Slice) : lt x x = false := by
  rw [← Bool.not_eq_true, lt_iff]
  exact lt_irrefl x

theorem lt_of_lt {x y z : Slice} (hxy : lt x y = true) (hyz : lt y z = true) :
    lt x z = true := by
  rw [lt_iff] at hxy hyz ⊢
  exact lt_trans hxy hyz

theorem ne_iff (x y : Slice) : ne x y = true ↔ x ≠ y := by
  rw [ne, Bool.not_eq_true', ← Bool.not_eq_true, beq_iff]

/-- Exactly one of the three holds. -/
theorem trichotomy (x y : Slice) :
    (lt x y = true ∧ beq x y = false ∧ lt y x = false) ∨
      (lt x y = false ∧ beq x y = true ∧ lt y x = false) ∨
      (lt x y = false ∧ beq x y = false ∧ lt y x = true) := by
  simp only [← Bool.not_eq_true, lt_iff, beq_iff]
  rcases lt_trichotomy x y with h | rfl | h
  · exact Or.inl ⟨h, ne_of_lt h, lt_asymm h⟩
  · exact Or.inr (Or.inl ⟨lt_irrefl x, rfl, lt_irrefl x⟩)
  · exact Or.inr (Or.inr ⟨lt_asymm h, ne_of_gt h, h⟩)

/-! ### `compare` -/

theorem compare_neg_iff (x y : Slice) : compare x y < 0 ↔ lt x y = true := by
  simp only [compare, lt]
  generalize hr : memcmp x y _ = r
  by_cases h0 : r = 0
  · by_cases hlen : x.length < y.length
    · simp [h0, hlen]
    · by_cases hlen' : x.length > y.length <;> simp [h0, hlen, hlen']
  · simp [h0]

theorem compare_eq_zero_iff (x y : Slice) : compare x y = 0 ↔ beq x y = true := by
  simp only [compare, beq, Bool.and_eq_true, beq_iff_eq]
  rcases Nat.lt_trichotomy x.length y.length with hlen | hlen | hlen
  · rw [if_pos hlen]
    by_cases h0 : memcmp x y x.length = 0 <;> simp [h0, hlen, Nat.ne_of_lt hlen]
  · simp [hlen]
  · have hnot : ¬ x.length < y.length := Nat.lt_asymm hlen
    rw [if_neg hnot]
    by_cases h0 : memcmp x y y.length = 0 <;> simp [h0, hnot, hlen, Nat.ne_of_gt hlen]

/-- The remaining sign is the remaining case. -/
theorem compare_pos_iff (x y : Slice) : 0 < compare x y ↔ lt y x = true := by
  have hneg := compare_neg_iff x y
  have hzero := compare_eq_zero_iff x y
  rcases trichotomy x y with ⟨hlt, heq, hgt⟩ | ⟨hlt, heq, hgt⟩ | ⟨hlt, heq, hgt⟩ <;>
    simp only [hlt, heq, hgt, iff_true, iff_false, Bool.false_eq_true] at hneg hzero ⊢ <;>
    omega

/-! ### `difference_offset` -/

/-- The loop adds to `off` the length of the longest common prefix. -/
theorem offsetLoop_longest (x y : Slice) :
    ∀ off, ∃ d, IsLongest x y d ∧
      offsetLoop x y (if x.length < y.length then x.length else y.length) off = off + d := by
  induction x generalizing y with
  | nil =>
      intro off
      refine ⟨0, isLongest_nil_left y, ?_⟩
      cases y <;> rfl
  | cons a x ih =>
      intro off
      cases y with
      | nil => exact ⟨0, isLongest_nil_right _, rfl⟩
      | cons b y =>
          have hlen : (if (a :: x).length < (b :: y).length then (a :: x).length
                else (b :: y).length)
              = (if x.length < y.length then x.length else y.length) + 1 := by
            simp only [List.length_cons, Nat.add_lt_add_iff_right]
            split <;> rfl
          rw [hlen, offsetLoop]
          by_cases hab : a = b
          · subst hab
            obtain ⟨d, hd, hloop⟩ := ih y (off + 1)
            refine ⟨d + 1, isLongest_cons hd a, ?_⟩
            rw [if_neg (not_not.mpr rfl), hloop]
            omega
          · rw [if_pos hab]
            exact ⟨0, isLongest_of_ne hab x y, rfl⟩

/-- **`difference_offset` is the longest common prefix.** -/
theorem difference_offset_longest (x y : Slice) : IsLongest x y (difference_offset x y) := by
  obtain ⟨d, hd, hloop⟩ := offsetLoop_longest x y 0
  have heq : difference_offset x y = 0 + d := hloop
  rw [heq, Nat.zero_add]
  exact hd

/-! ### All of them -/

/-- **The comparisons are one total order.**  `operator<` is the strict
lexicographic order on unsigned bytes, `compare` has its sign, and the place
where two slices first differ tells `operator==` and `operator<`. -/
theorem comparisons_agree (x y z : Slice) :
    (lt x x = false ∧ (lt x y = true ∧ lt y z = true → lt x z = true) ∧
      ((lt x y = true ∧ beq x y = false ∧ lt y x = false) ∨
        (lt x y = false ∧ beq x y = true ∧ lt y x = false) ∨
        (lt x y = false ∧ beq x y = false ∧ lt y x = true))) ∧
    ((lt x y = true ↔ List.Lex (fun a b : UInt8 => a.toNat < b.toNat) x y) ∧
      (beq x y = true ↔ x = y) ∧ (ne x y = true ↔ x ≠ y)) ∧
    ((compare x y < 0 ↔ lt x y = true) ∧ (compare x y = 0 ↔ beq x y = true) ∧
      (0 < compare x y ↔ lt y x = true)) ∧
    IsLongest x y (difference_offset x y) ∧
    (beq x y = true ↔ difference_offset x y = x.length ∧ difference_offset x y = y.length) ∧
    (lt x y = true ↔
      (difference_offset x y = x.length ∧ difference_offset x y < y.length) ∨
        ∃ a b : UInt8, x[difference_offset x y]? = some a ∧ y[difference_offset x y]? = some b ∧
          a.toNat < b.toNat) := by
  have hlongest := difference_offset_longest x y
  refine ⟨⟨lt_self x, fun h => lt_of_lt h.1 h.2, trichotomy x y⟩,
    ⟨lt_iff x y, beq_iff x y, ne_iff x y⟩,
    ⟨compare_neg_iff x y, compare_eq_zero_iff x y, compare_pos_iff x y⟩, hlongest, ?_, ?_⟩
  · rw [beq_iff]
    exact hlongest.eq_iff
  · rw [lt_iff]
    exact hlongest.lt_iff

example : difference_offset [1, 0x80, 3] [1, 0x7f, 3] = 1 := by decide

end Slice

end BoltCpp
