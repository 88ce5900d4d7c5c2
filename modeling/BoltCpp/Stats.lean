/-
BoltCpp/Stats.lean

The arithmetic of statistics (`stats.h`).

`TxStats` is a commutative group under `+` and `-`, as its numbers wrap
around.  `Stats` is not: `+=` adds the statistics of the transactions and
nothing else, `-=` takes `tx_n` off as well.
-/
import BoltCpp.Database
import Mathlib.Algebra.Group.Basic

namespace BoltCpp

/-! ### `TxStats` -/

namespace TxStats

/-- `operator-=` -/
def sub (lhs rhs : TxStats) : TxStats where
  page_count := lhs.page_count - rhs.page_count
  page_alloc := lhs.page_alloc - rhs.page_alloc
  cursor_count := lhs.cursor_count - rhs.cursor_count
  node_count := lhs.node_count - rhs.node_count
  node_deref := lhs.node_deref - rhs.node_deref
  rebalance := lhs.rebalance - rhs.rebalance
  rebalance_time := lhs.rebalance_time - rhs.rebalance_time
  split := lhs.split - rhs.split
  spill := lhs.spill - rhs.spill
  spill_time := lhs.spill_time - rhs.spill_time
  write := lhs.write - rhs.write
  write_time := lhs.write_time - rhs.write_time

/-- Nothing was done. -/
def zero : TxStats := ⟨0, 0, 0, 0, 0, 0, 0, 0, 0, 0, 0, 0⟩

def neg (a : TxStats) : TxStats := zero.sub a

instance : Add TxStats := ⟨add⟩
instance : Sub TxStats := ⟨sub⟩
instance : Zero TxStats := ⟨zero⟩
instance : Neg TxStats := ⟨neg⟩

theorem add_def (a b : TxStats) : a + b = a.add b := rfl

theorem sub_def (a b : TxStats) : a - b = a.sub b := rfl

theorem neg_def (a : TxStats) : -a = a.neg := rfl

theorem zero_def : (0 : TxStats) = zero := rfl

instance : AddCommGroup TxStats where
  add_assoc a b c := by simp only [add_def, add, Int32.add_assoc, Int64.add_assoc]
  zero_add a := by simp only [add_def, add, zero_def, zero, Int32.zero_add, Int64.zero_add]
  add_zero a := by simp only [add_def, add, zero_def, zero, Int32.add_zero, Int64.add_zero]
  add_comm a b := by simp only [add_def, add, Int32.add_comm, Int64.add_comm]
  neg_add_cancel a := by
    simp only [add_def, add, neg_def, neg, sub, zero_def, zero, Int32.zero_sub, Int64.zero_sub,
      Int32.add_left_neg, Int64.add_left_neg]
  sub_eq_add_neg a b := by
    simp only [add_def, add, neg_def, neg, sub_def, sub, zero, Int32.sub_eq_add_neg,
      Int64.sub_eq_add_neg, Int32.zero_add, Int64.zero_add]
  nsmul := nsmulRec
  zsmul := zsmulRec

end TxStats

/-! ### `Stats` -/

namespace Stats

/-- `operator-=` -/
def sub (lhs rhs : Stats) : Stats :=
  { lhs with
    tx_n := lhs.tx_n - rhs.tx_n
    tx_stats := lhs.tx_stats.sub rhs.tx_stats }

/-- `operator+=` -/
def add (lhs rhs : Stats) : Stats :=
  { lhs with tx_stats := lhs.tx_stats.add rhs.tx_stats }

/-- **What `-=` took off, `+=` adds, but for `tx_n`.** -/
theorem sub_add (lhs rhs : Stats) :
    (lhs.sub rhs).add rhs = { lhs with tx_n := lhs.tx_n - rhs.tx_n } := by
  have h : (lhs.tx_stats - rhs.tx_stats) + rhs.tx_stats = lhs.tx_stats := sub_add_cancel _ _
  have h' : (lhs.tx_stats.sub rhs.tx_stats).add rhs.tx_stats = lhs.tx_stats := h
  rw [add, sub, h']

end Stats

end BoltCpp
