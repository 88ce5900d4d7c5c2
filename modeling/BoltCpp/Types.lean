/-
BoltCpp/Types.lean

Vocabulary shared by every component: identifiers (`types.h`), the ways in
which the program can stop other than by returning, the conversions between
C++ integer types that narrow, and checked indexing of a vector.

`int` values that count elements of an in-memory vector are plain integers:
a vector of `2 ^ 31` inodes would need more than 96 GiB.  Every conversion
of a value that is stored in a page, or computed from one, narrows exactly.
-/
import Mathlib.Algebra.Ring.Int.Defs
import Mathlib.Algebra.Ring.Nat

namespace BoltCpp

/-- `pgid_t` -/
abbrev Pgid := UInt64

/-- `txid_t` -/
abbrev Txid := UInt64

/-- The address of a `Node` object. -/
abbrev NodePtr := Nat

/-! ### Abnormal ends -/

/-- How a call can end without returning.  `outOfFuel` is the model's own:
a loop was given too few iterations. -/
inductive Fault where
  /-- a failed `assert` -/
  | assertion (cond : String)
  /-- a message on `std::cerr` followed by `std::exit` -/
  | exit (msg : String)
  /-- a null pointer is dereferenced -/
  | nullDeref
  /-- `back()` of an empty vector -/
  | emptyBack
  /-- a vector is indexed outside its bounds -/
  | outOfRange
  | outOfFuel
  deriving DecidableEq, Repr

/-- A call that returned. -/
@[simp] theorem ok_bind {α β : Type} (x : α) (f : α → Except Fault β) :
    (Except.ok x >>= f) = f x := rfl

/-- A sequence of two calls has returned: so has each of them. -/
theorem ok_of_bind {α β : Type} {x : Except Fault α} {f : α → Except Fault β} {b : β}
    (h : (x >>= f) = .ok b) : ∃ a, x = .ok a ∧ f a = .ok b := by
  rcases x with e | a
  · cases h
  · exact ⟨a, rfl, h⟩

section

variable {ε σ α β : Type} {x : EStateM ε σ α} {f : α → EStateM ε σ β} {s s' : σ}

/-- A call with a state that returned, and one that did not. -/
theorem bind_ok {a : α} (h : x s = .ok a s') : (x >>= f) s = f a s' := by
  show EStateM.bind x f s = f a s'
  rw [EStateM.bind, h]

theorem bind_error {e : ε} (h : x s = .error e s') : (x >>= f) s = .error e s' := by
  show EStateM.bind x f s = .error e s'
  rw [EStateM.bind, h]

end

/-- `xs[i]` for an `int` index. -/
def vecAt {α : Type*} (xs : List α) (i : Int) : Except Fault α :=
  if i < 0 then throw .outOfRange
  else
    match xs[i.toNat]? with
    | some x => pure x
    | none => throw .outOfRange

theorem vecAt_ofNat {α : Type*} {xs : List α} {i : Nat} {x : α} (h : xs[i]? = some x) :
    vecAt xs (i : Int) = .ok x := by
  have h0 : ¬ (i : Int) < 0 := by omega
  simp only [vecAt, h0, if_false, Int.toNat_natCast, h]
  rfl

/-- Indexing commutes with mapping. -/
theorem vecAt_map_bind {α β γ : Type} (f : α → β) (xs : List α) (i : Int)
    (g : β → Except Fault γ) : (vecAt (xs.map f) i >>= g) = vecAt xs i >>= fun x => g (f x) := by
  rw [vecAt, vecAt, List.getElem?_map]
  split
  · rfl
  · cases xs[i.toNat]? <;> rfl

/-! ### Narrowing conversions -/

/-- Conversion to `int`. -/
def toInt32 (i : Int) : Int := i.bmod (2 ^ 32)

/-- Conversion to `std::uint16_t`. -/
def toUInt16 (i : Int) : UInt16 := UInt16.ofNat (i % 2 ^ 16).toNat

/-- Conversion to `std::uint32_t`. -/
def toUInt32 (i : Int) : UInt32 := UInt32.ofNat (i % 2 ^ 32).toNat

theorem toInt32_of_lt {n : Nat} (h : n < 2 ^ 31) : toInt32 n = n := by
  rw [toInt32, Int.bmod_eq_of_le] <;> omega

theorem toInt32_lt (i : Int) : toInt32 i < 2 ^ 31 := by
  have := Int.bmod_lt (x := i) (m := 2 ^ 32) (by decide)
  rw [toInt32]
  omega

theorem toNat_toUInt16 (i : Nat) : (toUInt16 (i : Int)).toNat = i % 65536 := by
  have : ((i : Int) % 2 ^ 16).toNat = i % 65536 := by omega
  rw [toUInt16, this, UInt16.toNat_ofNat']
  omega

theorem toNat_toUInt32 {i : Nat} (h : i < 2 ^ 32) : (toUInt32 (i : Int)).toNat = i := by
  have : ((i : Int) % 2 ^ 32).toNat = i := by omega
  rw [toUInt32, this, UInt32.toNat_ofNat']
  omega

end BoltCpp
