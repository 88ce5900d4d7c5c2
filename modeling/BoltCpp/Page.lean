/-
BoltCpp/Page.lean

Pages and their elements (`page.h`, `page.cpp`), as bytes in memory.

A `Page` object occupies 32 bytes at its address:

    id_ 0..8   flags_ 8..10   count_ 12..16   overflow_ 16..20   ptr_ 24..32

`ptr_` holds the absolute address of the data area, which starts with an
array of 16-byte element headers.  An element finds its key relative to its
own address, so copying a header elsewhere moves the key it denotes.

Accessors take the memory and an address; setters return the new memory.
-/
import BoltCpp.Slice
import BoltCpp.Lib.ByteMem

namespace BoltCpp

open ByteMem

def BranchPageFlag : UInt16 := 0x01
def LeafPageFlag : UInt16 := 0x02
def MetaPageFlag : UInt16 := 0x04
def FreelistPageFlag : UInt16 := 0x10

def BucketLeafFlag : UInt32 := 0x01

/-- `Page::pagehsz()`, the offset of `ptr_` -/
def pageHeaderSize : Nat := 24
/-- `sizeof(LeafPageElement)` -/
def leafPageElementSize : Nat := 16
/-- `sizeof(BranchPageElement)` -/
def branchPageElementSize : Nat := 16

/-! ### Elements -/

/-- What a leaf holds for a key. -/
structure Entry where
  flags : UInt32
  key : Slice
  value : Slice
  deriving DecidableEq, Repr

namespace LeafPageElement

def flags (m : Mem) (e : Nat) : UInt32 := UInt32.ofNat (m.load e 4)
def pos (m : Mem) (e : Nat) : UInt32 := UInt32.ofNat (m.load (e + 4) 4)
def ksize (m : Mem) (e : Nat) : UInt32 := UInt32.ofNat (m.load (e + 8) 4)
def vsize (m : Mem) (e : Nat) : UInt32 := UInt32.ofNat (m.load (e + 12) 4)

def key (m : Mem) (e : Nat) : Slice := m.read (e + (pos m e).toNat) (ksize m e).toNat

def value (m : Mem) (e : Nat) : Slice :=
  m.read (e + (pos m e).toNat + (ksize m e).toNat) (vsize m e).toNat

def entry (m : Mem) (e : Nat) : Entry := ⟨flags m e, key m e, value m e⟩

end LeafPageElement

namespace BranchPageElement

def pos (m : Mem) (e : Nat) : UInt32 := UInt32.ofNat (m.load e 4)
def ksize (m : Mem) (e : Nat) : UInt32 := UInt32.ofNat (m.load (e + 4) 4)
def id (m : Mem) (e : Nat) : Pgid := UInt64.ofNat (m.load (e + 8) 8)

def key (m : Mem) (e : Nat) : Slice := m.read (e + (pos m e).toNat) (ksize m e).toNat

end BranchPageElement

/-! ### Pages -/

namespace Page

def id (m : Mem) (p : Nat) : Pgid := UInt64.ofNat (m.load p 8)
def flags (m : Mem) (p : Nat) : UInt16 := UInt16.ofNat (m.load (p + 8) 2)
def count (m : Mem) (p : Nat) : UInt32 := UInt32.ofNat (m.load (p + 12) 4)
def overflow (m : Mem) (p : Nat) : UInt32 := UInt32.ofNat (m.load (p + 16) 4)
def ptr (m : Mem) (p : Nat) : Nat := m.load (p + 24) 8

def type (m : Mem) (p : Nat) : String :=
  if flags m p &&& BranchPageFlag ≠ 0 then "branch"
  else if flags m p &&& LeafPageFlag ≠ 0 then "leaf"
  else if flags m p &&& MetaPageFlag ≠ 0 then "meta"
  else if flags m p &&& FreelistPageFlag ≠ 0 then "freelist"
  else s!"unknown<{flags m p}>"

/-- The constructor `Page(id, flag, ptr)`. -/
def construct (m : Mem) (p : Nat) (id : Pgid) (flag : UInt16) (ptr : Nat) : Mem :=
  let m := m.store p 8 id.toNat
  let m := m.store (p + 8) 2 flag.toNat
  let m := m.store (p + 12) 4 0
  let m := m.store (p + 16) 4 0
  m.store (p + 24) 8 ptr

def setID (m : Mem) (p : Nat) (id : Pgid) : Mem := m.store p 8 id.toNat

def setFlags (m : Mem) (p : Nat) (f : UInt16) : Mem :=
  m.store (p + 8) 2 (flags m p ||| f).toNat

def setCount (m : Mem) (p : Nat) (c : UInt32) : Mem := m.store (p + 12) 4 c.toNat

def unsetOverflow (m : Mem) (p : Nat) : Mem :=
  m.store (p + 16) 4 (overflow m p &&& 0x0000).toNat

def leafPageElement (m : Mem) (p : Nat) (index : UInt16) : Nat :=
  ptr m p + leafPageElementSize * index.toNat

def branchPageElement (m : Mem) (p : Nat) (index : UInt16) : Nat :=
  ptr m p + branchPageElementSize * index.toNat

/-- The addresses of an array of `n` elements of 16 bytes at `a`. -/
def elementAddrs (a n : Nat) : List Nat :=
  (List.range n).map fun i => a + 16 * i

/-- `leafPageElements()`: the elements are copied into a vector whose storage
is at `vec`.  Returns the memory holding the copies and their addresses. -/
def leafPageElements (m : Mem) (p vec : Nat) : Mem × List Nat :=
  let n := (count m p).toNat
  (m.write vec (m.read (ptr m p) (leafPageElementSize * n)), elementAddrs vec n)

/-- `branchPageElements()` -/
def branchPageElements (m : Mem) (p vec : Nat) : Mem × List Nat :=
  let n := (count m p).toNat
  (m.write vec (m.read (ptr m p) (branchPageElementSize * n)), elementAddrs vec n)

/-! #### The header fields -/

/-- The header fields depend only on the 32 bytes of the object. -/
structure SameHeader (m m' : Mem) (p p' : Nat) : Prop where
  id : id m' p' = id m p
  flags : flags m' p' = flags m p
  count : count m' p' = count m p
  overflow : overflow m' p' = overflow m p
  ptr : ptr m' p' = ptr m p

theorem sameHeader_of_bytes {m m' : Mem} {p p' : Nat}
    (h : ∀ i, i < 32 → m' (p' + i) = m (p + i)) : SameHeader m m' p p' := by
  have hload : ∀ off k, off + k ≤ 32 → m'.load (p' + off) k = m.load (p + off) k := by
    intro off k hk
    refine Mem.load_congr fun i hi => ?_
    rw [Nat.add_assoc, Nat.add_assoc]
    exact h _ (by omega)
  have h0 : m'.load p' 8 = m.load p 8 := by simpa using hload 0 8 (by omega)
  exact ⟨by rw [id, h0, id],
    by rw [flags, hload 8 2 (by omega), flags],
    by rw [count, hload 12 4 (by omega), count],
    by rw [overflow, hload 16 4 (by omega), overflow],
    by rw [ptr, hload 24 8 (by omega), ptr]⟩

/-- A block written clear of the object leaves its header alone. -/
theorem sameHeader_write (m : Mem) {p a : Nat} (bs : List UInt8)
    (h : a + bs.length ≤ p ∨ p + 32 ≤ a) : SameHeader m (m.write a bs) p p := by
  refine sameHeader_of_bytes fun i hi => ?_
  rcases h with h | h
  · exact Mem.write_of_ge m bs (by omega)
  · exact Mem.write_of_lt m bs (by omega)

theorem ptr_lt (m : Mem) (p : Nat) : ptr m p < 2 ^ 64 := by
  have := m.load_lt (p + 24) 8
  simpa [ptr] using this

/-! #### Setters -/

@[simp] theorem flags_setFlags (m : Mem) (p : Nat) (f : UInt16) :
    flags (setFlags m p f) p = flags m p ||| f := by
  rw [flags, setFlags, Mem.load_store_self]
  have := (flags m p ||| f).toNat_lt
  rw [Nat.mod_eq_of_lt (by omega), UInt16.ofNat_toNat]

@[simp] theorem id_setID (m : Mem) (p : Nat) (i : Pgid) : id (setID m p i) p = i := by
  rw [id, setID, Mem.load_store_self]
  have := i.toNat_lt
  rw [Nat.mod_eq_of_lt (by omega), UInt64.ofNat_toNat]

@[simp] theorem flags_setID (m : Mem) (p : Nat) (i : Pgid) :
    flags (setID m p i) p = flags m p := by
  rw [flags, setID, Mem.load_store_of_disjoint m (by omega), flags]

@[simp] theorem ptr_setID (m : Mem) (p : Nat) (i : Pgid) : ptr (setID m p i) p = ptr m p := by
  rw [ptr, setID, Mem.load_store_of_disjoint m (by omega), ptr]

@[simp] theorem count_setCount (m : Mem) (p : Nat) (c : UInt32) :
    count (setCount m p c) p = c := by
  rw [count, setCount, Mem.load_store_self]
  have := c.toNat_lt
  rw [Nat.mod_eq_of_lt (by omega), UInt32.ofNat_toNat]

@[simp] theorem flags_setCount (m : Mem) (p : Nat) (c : UInt32) :
    flags (setCount m p c) p = flags m p := by
  rw [flags, setCount, Mem.load_store_of_disjoint m (by omega), flags]

@[simp] theorem flags_unsetOverflow (m : Mem) (p : Nat) :
    flags (unsetOverflow m p) p = flags m p := by
  rw [flags, unsetOverflow, Mem.load_store_of_disjoint m (by omega), flags]

@[simp] theorem id_setFlags (m : Mem) (p : Nat) (f : UInt16) :
    id (setFlags m p f) p = id m p := by
  rw [id, setFlags, Mem.load_store_of_disjoint m (by omega), id]

@[simp] theorem id_setCount (m : Mem) (p : Nat) (c : UInt32) :
    id (setCount m p c) p = id m p := by
  rw [id, setCount, Mem.load_store_of_disjoint m (by omega), id]

@[simp] theorem id_unsetOverflow (m : Mem) (p : Nat) : id (unsetOverflow m p) p = id m p := by
  rw [id, unsetOverflow, Mem.load_store_of_disjoint m (by omega), id]

@[simp] theorem ptr_setFlags (m : Mem) (p : Nat) (f : UInt16) :
    ptr (setFlags m p f) p = ptr m p := by
  rw [ptr, setFlags, Mem.load_store_of_disjoint m (by omega), ptr]

@[simp] theorem ptr_setCount (m : Mem) (p : Nat) (c : UInt32) :
    ptr (setCount m p c) p = ptr m p := by
  rw [ptr, setCount, Mem.load_store_of_disjoint m (by omega), ptr]

@[simp] theorem ptr_unsetOverflow (m : Mem) (p : Nat) :
    ptr (unsetOverflow m p) p = ptr m p := by
  rw [ptr, unsetOverflow, Mem.load_store_of_disjoint m (by omega), ptr]

/-! #### Element arrays -/

/-- An index that fits 16 bits reaches its own element. -/
theorem leafPageElement_of_lt (m : Mem) (p : Nat) {i : Nat} (hi : i < 65536) :
    leafPageElement m p (toUInt16 (i : Int)) = ptr m p + 16 * i := by
  rw [leafPageElement, toNat_toUInt16, Nat.mod_eq_of_lt hi, leafPageElementSize]

theorem branchPageElement_of_lt (m : Mem) (p : Nat) {i : Nat} (hi : i < 65536) :
    branchPageElement m p (toUInt16 (i : Int)) = ptr m p + 16 * i := by
  rw [branchPageElement, toNat_toUInt16, Nat.mod_eq_of_lt hi, branchPageElementSize]

@[simp] theorem length_elementAddrs (a n : Nat) : (elementAddrs a n).length = n := by
  simp [elementAddrs]

end Page

end BoltCpp
