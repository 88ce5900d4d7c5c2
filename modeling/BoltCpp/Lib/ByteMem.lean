/-
BoltCpp/Lib/ByteMem.lean

A flat byte-addressed memory: a total function from addresses to bytes.
Blocks are read with `read` and written with `write`; the algebra is the
usual one (read after write, disjoint writes commute, adjacent writes fuse).
Unsigned integers are stored little endian (`store`, `load`), `k` bytes wide
and therefore modulo `256 ^ k`.

Addresses are natural numbers, so an address does not wrap.
-/
import Mathlib.Data.List.OfFn
import Mathlib.Data.Nat.Basic
import Mathlib.Tactic.Ring

namespace ByteMem

/-- Memory: every address holds a byte. -/
abbrev Mem := Nat → UInt8

namespace Mem

/-- The `n` bytes from address `a` on. -/
def read (m : Mem) (a n : Nat) : List UInt8 :=
  (List.range n).map fun i => m (a + i)

/-- Put the block `bs` at address `a`. -/
def write (m : Mem) (a : Nat) (bs : List UInt8) : Mem := fun x =>
  if a ≤ x then (bs[x - a]?).getD (m x) else m x

/-! ### Reading -/

@[simp] theorem length_read (m : Mem) (a n : Nat) : (m.read a n).length = n := by
  simp [read]

theorem getElem_read (m : Mem) (a n i : Nat) (h : i < (m.read a n).length) :
    (m.read a n)[i] = m (a + i) := by
  simp [read]

theorem read_congr {m m' : Mem} {a a' n : Nat}
    (h : ∀ i, i < n → m (a + i) = m' (a' + i)) : m.read a n = m'.read a' n := by
  refine List.ext_getElem (by simp) ?_
  intro i hi hi'
  rw [getElem_read, getElem_read]
  exact h i (by simpa using hi)

theorem read_append (m : Mem) (a n k : Nat) :
    m.read a (n + k) = m.read a n ++ m.read (a + n) k := by
  refine List.ext_getElem (by simp) ?_
  intro i hi hi'
  rw [getElem_read, List.getElem_append]
  split
  · rw [getElem_read]
  · rw [getElem_read]
    congr 1
    simp at *
    omega

/-- A block inside a block. -/
theorem read_sub (m : Mem) (a n off k : Nat) (h : off + k ≤ n) :
    m.read (a + off) k = ((m.read a n).drop off).take k := by
  refine List.ext_getElem (by simp; omega) ?_
  intro i hi hi'
  rw [getElem_read, List.getElem_take, List.getElem_drop, getElem_read, Nat.add_assoc]

/-! ### Writing -/

theorem write_of_lt (m : Mem) {a x : Nat} (bs : List UInt8) (h : x < a) :
    m.write a bs x = m x := by
  simp [write, Nat.not_le.mpr h]

theorem write_of_ge (m : Mem) {a x : Nat} (bs : List UInt8) (h : a + bs.length ≤ x) :
    m.write a bs x = m x := by
  have hx : a ≤ x := by omega
  have hnone : bs[x - a]? = none := List.getElem?_eq_none (by omega)
  simp [write, hx, hnone]

theorem write_apply (m : Mem) (a i : Nat) (bs : List UInt8) (h : i < bs.length) :
    m.write a bs (a + i) = bs[i] := by
  simp [write, h]

@[simp] theorem write_nil (m : Mem) (a : Nat) : m.write a [] = m := by
  funext x
  simp [write]

/-- Reading back the block just written. -/
@[simp] theorem read_write_self (m : Mem) (a : Nat) (bs : List UInt8) :
    (m.write a bs).read a bs.length = bs := by
  refine List.ext_getElem (by simp) ?_
  intro i hi hi'
  rw [getElem_read, write_apply _ _ _ _ hi']

/-- A write elsewhere does not disturb a block. -/
theorem read_write_of_disjoint (m : Mem) {a b n : Nat} (bs : List UInt8)
    (h : b + n ≤ a ∨ a + bs.length ≤ b) : (m.write a bs).read b n = m.read b n := by
  refine read_congr ?_
  intro i hi
  rcases h with h | h
  · exact write_of_lt m bs (by omega)
  · exact write_of_ge m bs (by omega)

/-- Adjacent writes fuse. -/
theorem write_write_append (m : Mem) (a : Nat) (bs cs : List UInt8) :
    (m.write a bs).write (a + bs.length) cs = m.write a (bs ++ cs) := by
  funext x
  -- four places for `x`: in front of, in the first, in the second, behind the blocks
  by_cases h₁ : x < a
  · rw [write_of_lt _ _ (by omega), write_of_lt _ _ h₁, write_of_lt _ _ h₁]
  by_cases h₂ : x < a + bs.length
  · rw [write_of_lt _ _ h₂]
    obtain ⟨i, rfl⟩ : ∃ i, x = a + i := ⟨x - a, by omega⟩
    rw [write_apply _ _ _ _ (by omega), write_apply _ _ _ _ (by simp; omega),
      List.getElem_append_left]
  by_cases h₃ : x < a + (bs ++ cs).length
  · obtain ⟨i, rfl⟩ : ∃ i, x = a + bs.length + i := ⟨x - (a + bs.length), by omega⟩
    simp only [List.length_append] at h₃
    rw [write_apply _ _ _ _ (by omega), Nat.add_assoc,
      write_apply _ _ _ _ (by simp; omega), List.getElem_append_right (by omega)]
    simp
  · simp only [List.length_append] at h₃
    rw [write_of_ge _ _ (by omega), write_of_ge _ _ (by omega),
      write_of_ge _ _ (by simp; omega)]

/-- Disjoint writes commute. -/
theorem write_comm (m : Mem) {a b : Nat} (bs cs : List UInt8)
    (h : a + bs.length ≤ b) :
    (m.write a bs).write b cs = (m.write b cs).write a bs := by
  funext x
  by_cases h₁ : b ≤ x
  · rw [write_of_ge (m.write b cs) bs (by omega)]
    have hbs : m.write a bs x = m x := write_of_ge m bs (by omega)
    rw [write, if_pos h₁, hbs, write, if_pos h₁]
  · rw [write_of_lt _ cs (by omega)]
    simp only [write, h₁, if_false]

/-! ### Little-endian integers -/

/-- The `k` low bytes of `v`, least significant first. -/
def toLE : Nat → Nat → List UInt8
  | 0, _ => []
  | k + 1, v => UInt8.ofNat v :: toLE k (v / 256)

/-- The value of a little-endian block. -/
def ofLE : List UInt8 → Nat
  | [] => 0
  | b :: bs => b.toNat + 256 * ofLE bs

@[simp] theorem length_toLE (k v : Nat) : (toLE k v).length = k := by
  induction k generalizing v with
  | zero => rfl
  | succ k ih => simp [toLE, ih]

theorem ofLE_toLE (k v : Nat) : ofLE (toLE k v) = v % 256 ^ k := by
  induction k generalizing v with
  | zero => simp [toLE, ofLE, Nat.mod_one]
  | succ k ih =>
      have hbyte : (UInt8.ofNat v).toNat = v % 256 := by simp
      rw [toLE, ofLE, hbyte, ih, pow_succ', Nat.mod_mul]

theorem ofLE_lt (bs : List UInt8) : ofLE bs < 256 ^ bs.length := by
  induction bs with
  | nil => simp [ofLE]
  | cons b bs ih =>
      have hb := b.toNat_lt
      simp only [ofLE, List.length_cons, pow_succ']
      omega

@[simp] theorem ofLE_replicate_zero (k : Nat) : ofLE (List.replicate k 0) = 0 := by
  induction k with
  | zero => rfl
  | succ k ih => simp [List.replicate_succ, ofLE, ih]

/-- Read a `k`-byte integer. -/
def load (m : Mem) (a k : Nat) : Nat := ofLE (m.read a k)

/-- Store a `k`-byte integer, truncating it to its `k` low bytes. -/
def store (m : Mem) (a k v : Nat) : Mem := m.write a (toLE k v)

theorem load_lt (m : Mem) (a k : Nat) : m.load a k < 256 ^ k := by
  simpa [load] using ofLE_lt (m.read a k)

theorem load_store_self (m : Mem) (a k v : Nat) :
    (m.store a k v).load a k = v % 256 ^ k := by
  have h := read_write_self m a (toLE k v)
  rw [length_toLE] at h
  rw [load, store, h, ofLE_toLE]

theorem load_write_of_disjoint (m : Mem) {a b k : Nat} (bs : List UInt8)
    (h : b + k ≤ a ∨ a + bs.length ≤ b) : (m.write a bs).load b k = m.load b k := by
  rw [load, read_write_of_disjoint m bs h, load]

theorem load_store_of_disjoint (m : Mem) {a b k j v : Nat}
    (h : b + k ≤ a ∨ a + j ≤ b) : (m.store a j v).load b k = m.load b k :=
  load_write_of_disjoint m _ (by simpa using h)

/-- A store changes no other byte. -/
theorem store_of_outside (m : Mem) {a k v x : Nat} (h : x < a ∨ a + k ≤ x) :
    m.store a k v x = m x := by
  rcases h with h | h
  · exact write_of_lt m _ h
  · exact write_of_ge m _ (by rwa [length_toLE])

theorem load_congr {m m' : Mem} {a a' k : Nat}
    (h : ∀ i, i < k → m (a + i) = m' (a' + i)) : m.load a k = m'.load a' k := by
  rw [load, read_congr h, load]

/-- An integer inside a block that was copied. -/
theorem load_copy (m : Mem) {a b n off k : Nat} (h : off + k ≤ n) :
    (m.write b (m.read a n)).load (b + off) k = m.load (a + off) k := by
  refine load_congr fun i hi => ?_
  rw [Nat.add_assoc, write_apply _ _ _ _ (by rw [length_read]; omega), getElem_read, Nat.add_assoc]

/-- An integer in the middle of a block whose bytes are known. -/
theorem load_of_read {m : Mem} {a n k v off : Nat} {front rest : List UInt8}
    (h : m.read a n = front ++ (toLE k v ++ rest)) (hoff : front.length = off) :
    m.load (a + off) k = v % 256 ^ k := by
  have hn : off + k ≤ n := by
    have := congrArg List.length h
    simp only [length_read, List.length_append, length_toLE] at this
    omega
  rw [load, read_sub m a n off k hn, h, List.drop_left' hoff, List.take_left' (length_toLE k v),
    ofLE_toLE]

/-- An integer at the front of a block. -/
theorem load_of_read_front {m : Mem} {a n k v : Nat} {rest : List UInt8}
    (h : m.read a n = toLE k v ++ rest) : m.load a k = v % 256 ^ k :=
  load_of_read (h.trans (List.nil_append _).symm) rfl

end Mem

end ByteMem
