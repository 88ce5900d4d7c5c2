/-
BoltCpp/Meta.lean

The meta page (`meta.h`, `meta.cpp`) and the exceptions (`exception.h`).

A `Meta` object occupies 56 bytes at its address, its fields in the order in
which they are declared.  `sum64` hashes the bytes in front of `checksum`.
The hash `fnva64_buf` belongs to a library and is a parameter.
-/
import BoltCpp.Page

namespace BoltCpp

open ByteMem ByteMem.Mem

/-- What is thrown: the exceptions of `exception.h`, `std::system_error` with
what it is about, and whatever a function passed by the user throws. -/
inductive Exception where
  | databaseNotOpen
  | databaseInvalid
  | databaseVersionMismatch
  | databaseChecksum
  | databaseReadOnly
  | txNotWritable
  | txClosed
  | system (what : String)
  /-- what is left of an exception that is caught and thrown again by value -/
  | std
  | user (what : String)
  deriving DecidableEq, Repr

/-- `Magic` -/
def Magic : UInt32 := 0xED0CDAED

/-- `Version` -/
def Version : UInt32 := 2

/-- `Meta`; `root` is the address of a `bucket`. -/
structure Meta where
  magic : UInt32
  version : UInt32
  page_size : UInt32
  flags : UInt32
  root : UInt64
  freelist : Pgid
  pgid : Pgid
  txid : Txid
  checksum : UInt64
  deriving DecidableEq, Repr

namespace Meta

/-- The bytes of the object from `magic` up to `checksum`. -/
def bytes (m : Meta) : List UInt8 :=
  toLE 4 m.magic.toNat ++ toLE 4 m.version.toNat ++ toLE 4 m.page_size.toNat
    ++ toLE 4 m.flags.toNat ++ toLE 8 m.root.toNat ++ toLE 8 m.freelist.toNat
    ++ toLE 8 m.pgid.toNat ++ toLE 8 m.txid.toNat

def sum64 (fnva64_buf : List UInt8 → UInt64) (m : Meta) : UInt64 := fnva64_buf m.bytes

def validate (fnva64_buf : List UInt8 → UInt64) (m : Meta) : Except Exception Unit :=
  if m.magic ≠ Magic then throw .databaseInvalid
  else if m.version ≠ Version then throw .databaseVersionMismatch
  else if m.checksum ≠ 0 ∧ m.checksum ≠ m.sum64 fnva64_buf then throw .databaseChecksum
  else pure ()

def incrementTxID (m : Meta) : Meta := { m with txid := m.txid + 1 }

/-- The object with its checksum calculated. -/
def summed (fnva64_buf : List UInt8 → UInt64) (m : Meta) : Meta :=
  { m with checksum := m.sum64 fnva64_buf }

/-- A meta whose checksum has just been calculated is valid. -/
theorem validate_summed (fnva64_buf : List UInt8 → UInt64) {m : Meta} (hmagic : m.magic = Magic)
    (hversion : m.version = Version) : validate fnva64_buf (m.summed fnva64_buf) = .ok () := by
  have hmagic' : (m.summed fnva64_buf).magic = Magic := hmagic
  have hversion' : (m.summed fnva64_buf).version = Version := hversion
  have hsum : (m.summed fnva64_buf).sum64 fnva64_buf = (m.summed fnva64_buf).checksum := rfl
  rw [validate, hsum, if_neg (not_not.mpr hmagic'), if_neg (not_not.mpr hversion'),
    if_neg (fun h => h.2 rfl)]
  rfl

/-! ### In memory -/

/-- The object at the address `a`. -/
def load (m : Mem) (a : Nat) : Meta where
  magic := UInt32.ofNat (m.load a 4)
  version := UInt32.ofNat (m.load (a + 4) 4)
  page_size := UInt32.ofNat (m.load (a + 8) 4)
  flags := UInt32.ofNat (m.load (a + 12) 4)
  root := UInt64.ofNat (m.load (a + 16) 8)
  freelist := UInt64.ofNat (m.load (a + 24) 8)
  pgid := UInt64.ofNat (m.load (a + 32) 8)
  txid := UInt64.ofNat (m.load (a + 40) 8)
  checksum := UInt64.ofNat (m.load (a + 48) 8)

def store (m : Mem) (a : Nat) (v : Meta) : Mem :=
  m.write a (v.bytes ++ toLE 8 v.checksum.toNat)

/-- Reading back an object. -/
@[simp] theorem load_store (m : Mem) (a : Nat) (v : Meta) : load (store m a v) a = v := by
  obtain ⟨magic, version, page_size, flags, root, freelist, pgid, txid, checksum⟩ := v
  have h := read_write_self m a
    ((⟨magic, version, page_size, flags, root, freelist, pgid, txid, checksum⟩ : Meta).bytes
      ++ toLE 8 checksum.toNat)
  rw [← store, bytes, ← List.append_nil (toLE 8 checksum.toNat)] at h
  generalize store m a _ = m' at h
  generalize List.length _ = n at h
  simp only [List.append_assoc] at h
  have h₄ (x : UInt32) : UInt32.ofNat (x.toNat % 256 ^ 4) = x := by
    have := x.toNat_lt
    rw [Nat.mod_eq_of_lt (by omega), UInt32.ofNat_toNat]
  have h₈ (x : UInt64) : UInt64.ofNat (x.toNat % 256 ^ 8) = x := by
    have := x.toNat_lt
    rw [Nat.mod_eq_of_lt (by omega), UInt64.ofNat_toNat]
  -- the fields in order: each has the ones before it in front
  have hmagic := load_of_read_front h
  have hversion : m'.load (a + 4) 4 = _ := load_of_read h (by simp)
  rw [← List.append_assoc] at h
  have hpage_size : m'.load (a + 8) 4 = _ := load_of_read h (by simp)
  rw [← List.append_assoc] at h
  have hflags : m'.load (a + 12) 4 = _ := load_of_read h (by simp)
  rw [← List.append_assoc] at h
  have hroot : m'.load (a + 16) 8 = _ := load_of_read h (by simp)
  rw [← List.append_assoc] at h
  have hfreelist : m'.load (a + 24) 8 = _ := load_of_read h (by simp)
  rw [← List.append_assoc] at h
  have hpgid : m'.load (a + 32) 8 = _ := load_of_read h (by simp)
  rw [← List.append_assoc] at h
  have htxid : m'.load (a + 40) 8 = _ := load_of_read h (by simp)
  rw [← List.append_assoc] at h
  have hchecksum : m'.load (a + 48) 8 = _ := load_of_read h (by simp)
  rw [load, hmagic, hversion, hpage_size, hflags, hroot, hfreelist, hpgid, htxid, hchecksum]
  simp only [h₄, h₈]

end Meta

/-- `Page::meta()`: a pointer to the metadata section of the page. -/
def Page.meta (m : Mem) (p : Nat) : Nat := Page.ptr m p

end BoltCpp
