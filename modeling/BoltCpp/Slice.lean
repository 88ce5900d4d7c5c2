/-
BoltCpp/Slice.lean

Slices (`slice.h`).  A `Slice` is modelled by the bytes it refers to.

`operator<` and `operator==` are translated through `std::memcmp`; the two
lemmas that everything else rests on identify them with the lexicographic
order on unsigned bytes (`Slice.lt_iff`) and with equality (`Slice.beq_iff`).
-/
import BoltCpp.Types
import Mathlib.Data.List.Lex
import Mathlib.Order.Defs.LinearOrder
import Mathlib.Tactic.Order

namespace BoltCpp

/-- The bytes a `Slice` refers to. -/
abbrev Slice := List UInt8

/-- Bytes are ordered as unsigned numbers. -/
instance byteOrder : LinearOrder UInt8 where
  le_refl a := UInt8.le_refl a
  le_trans a b c := UInt8.le_trans
  lt_iff_le_not_ge a b := by
    simp only [UInt8.lt_iff_toNat_lt, UInt8.le_iff_toNat_le]
    omega
  le_antisymm a b := UInt8.le_antisymm
  le_total a b := UInt8.le_total a b
  toDecidableLE := inferInstance
  toDecidableLT := inferInstance
  toDecidableEq := inferInstance

namespace Slice

/-- `std::memcmp(x, y, n)`: the difference of the first bytes that differ
among the first `n`, compared as unsigned values. -/
def memcmp : Slice → Slice → Nat → Int
  | x :: xs, y :: ys, n + 1 =>
      if x = y then memcmp xs ys n else (x.toNat : Int) - (y.toNat : Int)
  | _, _, _ => 0

/-- `operator==` -/
def beq (x y : Slice) : Bool :=
  x.length == y.length && memcmp x y x.length == 0

/-- `operator<` -/
def lt (x y : Slice) : Bool :=
  let s1 := x.length
  let s2 := y.length
  let s := if s1 < s2 then s1 else s2
  let result := memcmp x y s
  decide (result < 0) || (decide (result = 0) && decide (s1 < s2))

/-- `operator!=` -/
def ne (x y : Slice) : Bool := !beq x y

/-- `compare`: negative, zero or positive. -/
def compare (x y : Slice) : Int :=
  let min_len := if x.length < y.length then x.length else y.length
  let r := memcmp x y min_len
  if r = 0 then
    if x.length < y.length then -1
    else if x.length > y.length then 1
    else r
  else r

/-- The loop of `difference_offset`, at `off` with `len` places to go. -/
def offsetLoop : Slice → Slice → (len off : Nat) → Nat
  | a :: x, b :: y, len + 1, off => if a ≠ b then off else offsetLoop x y len (off + 1)
  | _, _, _, off => off

/-- `difference_offset` -/
def difference_offset (x y : Slice) : Nat :=
  let len := if x.length < y.length then x.length else y.length
  offsetLoop x y len 0

/-! ### The comparisons are the lexicographic order -/

theorem memcmp_cons (a b : UInt8) (x y : Slice) (n : Nat) :
    memcmp (a :: x) (b :: y) (n + 1)
      = if a = b then memcmp x y n else (a.toNat : Int) - (b.toNat : Int) := rfl

theorem beq_iff (x y : Slice) : beq x y = true ↔ x = y := by
  induction x generalizing y with
  | nil => cases y <;> simp [beq, memcmp]
  | cons a x ih =>
      cases y with
      | nil => simp [beq]
      | cons b y =>
          by_cases hab : a = b
          · subst hab
            have := ih y
            simp only [beq, List.length_cons, memcmp_cons, if_true, Nat.add_right_cancel_iff,
              List.cons.injEq, true_and, Bool.and_eq_true, beq_iff_eq] at this ⊢
            exact this
          · have hne : (a.toNat : Int) - (b.toNat : Int) ≠ 0 := by
              intro h
              exact hab (UInt8.toNat_inj.mp (by omega))
            simp [beq, memcmp_cons, hab, hne]

theorem lt_cons (a b : UInt8) (x y : Slice) :
    lt (a :: x) (b :: y) = if a = b then lt x y else decide (a < b) := by
  have hs : (if (a :: x).length < (b :: y).length then (a :: x).length else (b :: y).length)
      = (if x.length < y.length then x.length else y.length) + 1 := by
    simp only [List.length_cons, Nat.add_lt_add_iff_right]
    split <;> rfl
  simp only [lt, hs, memcmp_cons]
  by_cases hab : a = b
  · simp [hab]
  · have hne : a.toNat ≠ b.toNat := fun h => hab (UInt8.toNat_inj.mp h)
    have h0 : ¬ (a.toNat : Int) - (b.toNat : Int) = 0 := by omega
    have hlt : ((a.toNat : Int) - (b.toNat : Int) < 0) ↔ a < b := by
      rw [UInt8.lt_iff_toNat_lt]
      omega
    simp [hab, h0, hlt]

theorem lt_iff (x y : Slice) : lt x y = true ↔ x < y := by
  induction x generalizing y with
  | nil => cases y <;> simp [lt, memcmp]
  | cons a x ih =>
      cases y with
      | nil => simp [lt, memcmp]
      | cons b y =>
          rw [lt_cons, List.cons_lt_cons_iff]
          by_cases hab : a = b
          · simp [hab, ih]
          · simp [hab]

theorem beq_eq_decide (x y : Slice) : beq x y = decide (x = y) := by
  rw [Bool.eq_iff_iff, beq_iff, decide_eq_true_iff]

example : lt [0x7f] [0x80] = true := by decide

end Slice

end BoltCpp
