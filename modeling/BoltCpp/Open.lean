/-
BoltCpp/Open.lean

Opening a database: the constructor of `DB`, with `init` and `mmap`
(`db.cpp`), from the point on where the file is open and locked.

The constructor starts from storage that holds anything, and `pageSize_` is a
field that it reads but never sets.  What the operating system answers, and
what it puts into memory, is given (`System`).
-/
import BoltCpp.Transactions

namespace BoltCpp

open ByteMem Locks

/-! ### The constructor -/

/-- A value of type `int` -/
def IsInt (i : Int) : Prop := -2 ^ 31 ≤ i ∧ i < 2 ^ 31

/-- `Option` -/
structure Options where
  ReadOnly : Bool
  InitialMmapSize : Int
  deriving DecidableEq, Repr

def DefaultOption : Options where
  ReadOnly := false
  InitialMmapSize := 0

/-- The length of the mapping that is asked for; a null pointer stands for the
default. -/
def mmapSize (option : Option Options) : Int := (option.getD DefaultOption).InitialMmapSize

/-- What the constructor finds.  `mem` is the memory once `buf` is allocated
and, unless the file is new, `read_at` has filled it; `mmap` gives the address
of a mapping and the memory with the file there. -/
structure System where
  getpagesize : Int
  fnva64_buf : List UInt8 → UInt64
  size : Nat
  mem : Mem
  buf : Nat
  fdatasync : Bool
  mmap : Int → Option (Nat × Mem)
  madvise : Nat → Int → Bool
  getpagesize_pos : 0 < getpagesize
  getpagesize_lt : getpagesize < 2 ^ 31
  mmap_pos : ∀ sz b m, mmap sz = some (b, m) → 0 < b

namespace DB

/-- `page_in_buffer`; the product is a 64-bit unsigned number. -/
def page_in_buffer (db : Database) (buf : Nat) (id : Pgid) : Nat :=
  buf + (id.toNat * db.page_size_ % 2 ^ 64).toNat

/-- `DB::meta()` is a stub: a new object, all zero. -/
def «meta» : Meta := ⟨0, 0, 0, 0, 0, 0, 0, 0, 0⟩

/-- The fields of meta page `i`; `flags` and `root` keep what is there. -/
def initFields (db : Database) (i : Nat) (m : Meta) : Meta :=
  { m with
    magic := Magic
    version := Version
    page_size := toUInt32 db.page_size_
    freelist := 2
    pgid := 4
    txid := UInt64.ofNat i }

/-- The body of the first loop of `init`. -/
def initMeta (sys : System) (db : Database) (mem : Mem) (i : Nat) : Mem :=
  let p := page_in_buffer db sys.buf (UInt64.ofNat i)
  let mem := Page.setID mem p (UInt64.ofNat i)
  let mem := Page.setFlags mem p MetaPageFlag
  let m := Page.meta mem p
  let v := initFields db i (Meta.load mem m)
  Meta.store mem m { v with checksum := v.sum64 sys.fnva64_buf }

/-- An empty page: the second and third part of `init`. -/
def initPage (sys : System) (db : Database) (mem : Mem) (id : Pgid) (flags : UInt16) : Mem :=
  let p := page_in_buffer db sys.buf id
  let mem := Page.setID mem p id
  let mem := Page.setFlags mem p flags
  Page.setCount mem p 0

/-- The pages of the buffer are taken to have a `ptr_` that can be written
through; nothing sets it. -/
def init (sys : System) (db : Database) : Except Exception (Database × Mem) :=
  let db := { db with page_size_ := sys.getpagesize }
  let mem := (List.range 2).foldl (initMeta sys db) sys.mem
  let mem := initPage sys db mem 2 FreelistPageFlag
  let mem := initPage sys db mem 3 LeafPageFlag
  if sys.fdatasync then pure (db, mem) else throw (.system "fdatasync failed")

def mmap (sys : System) (db : Database) (sz : Int) : Except Exception (Database × Mem) :=
  match sys.mmap sz with
  | none => throw (.system "mmap failed")
  | some (b, mem) =>
      if sys.madvise b sz then pure ({ db with data_ := b, data_sz_ := sz }, mem)
      else throw (.system "madvise failed")

/-- The part of the constructor that sets `page_size_`. -/
def sizePages (sys : System) (db : Database) : Except Exception Database :=
  if sys.size = 0 then do
    let (db, _) ← init sys db
    pure db
  else
    let m := Meta.load sys.mem (Page.meta sys.mem (page_in_buffer db sys.buf 0))
    match m.validate sys.fnva64_buf with
    | .ok () => pure { db with page_size_ := toInt32 m.page_size.toNat }
    | .error _ => pure { db with page_size_ := sys.getpagesize }

/-- The initialisers of the members and the options.  `storage` is what the
object holds before; a field without an initialiser keeps it. -/
def initialised (storage : Database) (option : Options) : Database :=
  { storage with
    opened_ := false
    read_only_ := if option.ReadOnly then true else storage.read_only_
    txs_ := []
    rwlock_ := ⟨false⟩
    metalock_ := ⟨false⟩
    mmaplock_ := .free
    statlock_ := .free }

/-- The last part of the constructor: the file is mapped and the freelist is
read.  When `mmap` throws, `close` returns at once, and the exception is thrown
again by value. -/
def attach (sys : System) (db : Database) (sz : Int) : Except Exception Database :=
  match mmap sys db sz with
  | .error _ => throw .std
  | .ok (db, mem) =>
      pure { db with freelist_ := FreeList.empty.read mem (db.toDB.page DB.meta.freelist) }

/-- The constructor. -/
def construct (sys : System) (storage : Database) (option : Option Options) :
    Except Exception Database := do
  let option := option.getD DefaultOption
  let db ← sizePages sys (initialised storage option)
  attach sys { db with page_pool_ := ⟨db.pageSize_⟩ } option.InitialMmapSize

end DB

/-! ### The size of a page -/

/-- The first meta page of an existing file. -/
def System.first (sys : System) : Meta :=
  Meta.load sys.mem (Page.meta sys.mem sys.buf)

/-- The size of a page of the database: what the meta page records, if there is
one and it is valid, otherwise that of the operating system. -/
def System.recorded (sys : System) : Nat :=
  if sys.size = 0 then sys.getpagesize.toNat
  else
    match sys.first.validate sys.fnva64_buf with
    | .ok () => sys.first.page_size.toNat
    | .error _ => sys.getpagesize.toNat

/-- The mapping the constructor gets. -/
def System.maps (sys : System) (sz : Int) : Option (Nat × Mem) :=
  (sys.mmap sz).filter fun b => sys.madvise b.1 sz

variable {sys : System} {storage db : Database} {option : Option Options}

theorem page_in_buffer_zero (db : Database) (buf : Nat) : DB.page_in_buffer db buf 0 = buf := by
  simp [DB.page_in_buffer]

theorem toInt32_getpagesize (sys : System) : toInt32 sys.getpagesize.toNat = sys.getpagesize := by
  have h0 := sys.getpagesize_pos
  have hlt := sys.getpagesize_lt
  rw [toInt32_of_lt (by omega)]
  omega

theorem attach_of_none (db : Database) {sz : Int} (h : sys.maps sz = none) :
    DB.attach sys db sz = .error .std := by
  have hmmap : ∃ e, DB.mmap sys db sz = .error e := by
    simp only [DB.mmap]
    cases hmap : sys.mmap sz with
    | none => exact ⟨_, rfl⟩
    | some found =>
        have hadvise : sys.madvise found.1 sz = false := by
          simpa [System.maps, hmap] using h
        exact ⟨_, by simp only [hadvise]; rfl⟩
  obtain ⟨e, he⟩ := hmmap
  rw [DB.attach, he]
  rfl

theorem attach_of_some (db : Database) {sz : Int} {b : Nat} {mem : Mem}
    (h : sys.maps sz = some (b, mem)) :
    DB.attach sys db sz
      = .ok { db with
          data_ := b
          data_sz_ := sz
          freelist_ :=
            FreeList.empty.read mem (DB.page ⟨b, db.pageSize_⟩ DB.meta.freelist) } := by
  obtain ⟨hmap, hadvise⟩ := Option.filter_eq_some_iff.mp h
  simp only [DB.attach, DB.mmap, hmap, hadvise, if_true]
  rfl

/-- What `page_size_` is set to, and that nothing else is. -/
theorem sizePages_eq (sys : System) (db : Database) :
    DB.sizePages sys db
      = if sys.size = 0 ∧ sys.fdatasync = false then .error (.system "fdatasync failed")
        else .ok { db with page_size_ := toInt32 sys.recorded } := by
  rw [DB.sizePages, System.recorded]
  by_cases hsize : sys.size = 0
  · simp only [hsize, if_true, true_and, toInt32_getpagesize]
    rw [DB.init]
    cases sys.fdatasync <;> rfl
  · simp only [hsize, if_false, false_and, page_in_buffer_zero]
    rw [← System.first]
    cases sys.first.validate sys.fnva64_buf with
    | ok _ => rfl
    | error _ => simp only [toInt32_getpagesize]; rfl

/-- What the constructor has made of the storage when it is done. -/
structure Constructed (sys : System) (storage : Database) (sz : Int) (db : Database) :
    Prop where
  pageSize : db.pageSize_ = storage.pageSize_
  page_size : db.page_size_ = toInt32 sys.recorded
  page_pool : db.page_pool_ = ⟨storage.pageSize_⟩
  data_pos : 0 < db.data_
  data_sz : db.data_sz_ = sz
  fresh : Fresh ⟨db, []⟩

/-- **How the constructor ends.**  It is done if the pages can be sized and
the file can be mapped with the length the options ask for. -/
theorem construct_spec (sys : System) (storage : Database) (option : Option Options) :
    if (sys.size = 0 ∧ sys.fdatasync = false) ∨ sys.maps (mmapSize option) = none then
      ∃ e, DB.construct sys storage option = .error e
    else
      ∃ db, DB.construct sys storage option = .ok db ∧
        Constructed sys storage (mmapSize option) db := by
  by_cases hsync : sys.size = 0 ∧ sys.fdatasync = false
  · rw [DB.construct, sizePages_eq, if_pos hsync, if_pos (Or.inl hsync)]
    exact ⟨_, rfl⟩
  have hconstruct :
      DB.construct sys storage option
        = DB.attach sys
            { DB.initialised storage (option.getD DefaultOption) with
              page_size_ := toInt32 sys.recorded
              page_pool_ := ⟨storage.pageSize_⟩ } (mmapSize option) := by
    rw [DB.construct, sizePages_eq, if_neg hsync]
    generalize toInt32 sys.recorded = ps
    rfl
  rw [hconstruct]
  cases hmaps : sys.maps (mmapSize option) with
  | none =>
      rw [if_pos (Or.inr rfl)]
      exact ⟨_, attach_of_none _ hmaps⟩
  | some found =>
      obtain ⟨b, mem⟩ := found
      have hb : 0 < b := sys.mmap_pos _ b mem (Option.filter_eq_some_iff.mp hmaps).1
      rw [if_neg (by simp [hsync])]
      refine ⟨_, attach_of_some _ hmaps, ?_⟩
      exact ⟨rfl, by dsimp only, rfl, hb, rfl, ⟨rfl, rfl, rfl, rfl, rfl, rfl⟩⟩

theorem construct_ok (h : DB.construct sys storage option = .ok db) :
    Constructed sys storage (mmapSize option) db := by
  have hspec := construct_spec sys storage option
  split at hspec
  · obtain ⟨e, he⟩ := hspec
    rw [h] at he
    cases he
  · obtain ⟨db', hdb', hc⟩ := hspec
    rw [h] at hdb'
    cases hdb'
    exact hc

/-- The constructor leaves a state from which transactions can start. -/
theorem construct_reachable (h : DB.construct sys storage option = .ok db)
    (inplace_merge : RangeMerge.Merge Pgid) : Reachable inplace_merge ⟨db, []⟩ :=
  ⟨_, [], (construct_ok h).fresh, rfl⟩

end BoltCpp
