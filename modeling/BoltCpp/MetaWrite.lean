/-
BoltCpp/MetaWrite.lean

Writing the meta page (`Meta::write`), and what its bytes say.

`write` refuses a meta with something above the high-water mark; any other one
is stored with a checksum that validates (`write_validates`).

A `Meta` holds the root bucket as a pointer.  `write` copies the object and
`sum64` hashes it, so the address is stored and the bucket is not.  The bytes
tell two metas apart by their own fields (`bytes_inj`); what the root bucket
is they tell as far as the memory at the address does (`bytes_determine_iff`).
-/
import BoltCpp.Meta

namespace BoltCpp

open ByteMem ByteMem.Mem

/-- `struct bucket`, the header of a bucket: the page id of its root and its
sequence. -/
structure BucketHeader where
  root : Pgid
  sequence : UInt64
  deriving DecidableEq, Repr

namespace BucketHeader

/-- The object at the address `a`. -/
def load (m : Mem) (a : Nat) : BucketHeader where
  root := UInt64.ofNat (m.load a 8)
  sequence := UInt64.ofNat (m.load (a + 8) 8)

def store (m : Mem) (a : Nat) (b : BucketHeader) : Mem :=
  (m.store a 8 b.root.toNat).store (a + 8) 8 b.sequence.toNat

/-- Reading back an object. -/
@[simp] theorem load_store (m : Mem) (a : Nat) (b : BucketHeader) : load (store m a b) a = b := by
  have hroot : (store m a b).load a 8 = b.root.toNat := by
    rw [store, load_store_of_disjoint _ (by omega), load_store_self]
    exact Nat.mod_eq_of_lt b.root.toNat_lt
  have hsequence : (store m a b).load (a + 8) 8 = b.sequence.toNat := by
    rw [store, load_store_self]
    exact Nat.mod_eq_of_lt b.sequence.toNat_lt
  rw [load, hroot, hsequence, UInt64.ofNat_toNat, UInt64.ofNat_toNat]

end BucketHeader

namespace Meta

/-- The bucket that `root` points to. -/
def rootBucket (m : Mem) (v : Meta) : BucketHeader := BucketHeader.load m v.root.toNat

/-- `write`, on the memory: it returns the object with its checksum, or the
message with which it aborts. -/
def write (fnva64_buf : List UInt8 → UInt64) (v : Meta) (p : Nat) : EStateM String Mem Meta := do
  let m ← get
  if (v.rootBucket m).root ≥ v.pgid then
    let root := (v.rootBucket m).root
    let pgid := v.pgid
    throw s!"root bucket pgid ({root}) above high water mark ({pgid}\n"
  else if v.freelist ≥ v.pgid then
    let freelist := v.freelist
    let pgid := v.pgid
    throw s!"freelist pgid ({freelist}) above high water mark ({pgid})\n"
  else
    modify fun m => Page.setID m p (v.txid % 2)
    modify fun m => Page.setFlags m p (Page.flags m p ||| MetaPageFlag)
    let v := { v with checksum := v.sum64 fnva64_buf }
    modify fun m => store m (Page.meta m p) v
    pure v

/-- The root bucket or the freelist lies above the high-water mark. -/
def AboveHighWater (m : Mem) (v : Meta) : Prop :=
  v.pgid ≤ (v.rootBucket m).root ∨ v.pgid ≤ v.freelist

/-- The page of a meta, without the meta. -/
def withMetaHeader (m : Mem) (v : Meta) (p : Nat) : Mem :=
  Page.setFlags (Page.setID m p (v.txid % 2)) p (Page.flags m p ||| MetaPageFlag)

variable {fnva64_buf : List UInt8 → UInt64} {m m' : Mem} {v v' : Meta} {p : Nat}

/-- `write` aborts before it touches the page. -/
theorem write_of_above (fnva64_buf : List UInt8 → UInt64) (p : Nat) (h : AboveHighWater m v) :
    ∃ e, write fnva64_buf v p m = .error e m := by
  have hget : (get : EStateM String Mem Mem) m = .ok m m := rfl
  rw [write, bind_ok hget]
  by_cases hroot : (v.rootBucket m).root ≥ v.pgid
  · exact ⟨_, by rw [if_pos hroot]; rfl⟩
  · have hfreelist : v.freelist ≥ v.pgid := h.resolve_left hroot
    exact ⟨_, by rw [if_neg hroot, if_pos hfreelist]; rfl⟩

/-- Otherwise it sets id and flags of the page and stores the meta. -/
theorem write_of_below (fnva64_buf : List UInt8 → UInt64) (p : Nat) (h : ¬ AboveHighWater m v) :
    write fnva64_buf v p m
      = .ok (v.summed fnva64_buf)
          (store (withMetaHeader m v p) (Page.meta m p) (v.summed fnva64_buf)) := by
  rw [AboveHighWater, not_or] at h
  have hmeta : Page.meta (withMetaHeader m v p) p = Page.meta m p := by
    rw [Page.meta, withMetaHeader, Page.ptr_setFlags, Page.ptr_setID, Page.meta]
  have hget : (get : EStateM String Mem Mem) m = .ok m m := rfl
  rw [write, bind_ok hget, if_neg h.1, if_neg h.2, ← hmeta, withMetaHeader,
    ← Page.flags_setID m p (v.txid % 2)]
  rfl

/-- The memory after a `write` that returned. -/
theorem memory_of_write (h : write fnva64_buf v p m = .ok v' m') :
    m' = store (withMetaHeader m v p) (Page.meta m p) (v.summed fnva64_buf) := by
  by_cases habove : AboveHighWater m v
  · obtain ⟨e, he⟩ := write_of_above fnva64_buf p habove
    rw [he] at h
    cases h
  · rw [write_of_below fnva64_buf p habove] at h
    exact (EStateM.Result.ok.inj h).2.symm

/-! ### The bytes -/

/-- The object without its checksum. -/
def unsummed (v : Meta) : Meta := { v with checksum := 0 }

@[simp] theorem length_bytes (v : Meta) : v.bytes.length = 48 := by
  simp [bytes]

@[simp] theorem bytes_unsummed (v : Meta) : v.unsummed.bytes = v.bytes := rfl

/-- The bytes are those of the fields, the pointer among them. -/
theorem bytes_inj {v v' : Meta} : v.bytes = v'.bytes ↔ v.unsummed = v'.unsummed := by
  constructor
  · intro h
    have hstore : store (fun _ => 0) 0 v.unsummed = store (fun _ => 0) 0 v'.unsummed := by
      rw [store, store, bytes_unsummed, bytes_unsummed, h]
      rfl
    rw [← load_store (fun _ => 0) 0 v.unsummed, hstore, load_store]
  · intro h
    rw [← bytes_unsummed, h, bytes_unsummed]

/-- These are the bytes that `write` leaves in the page. -/
theorem read_write (h : write fnva64_buf v p m = .ok v' m') :
    m'.read (Page.meta m p) 48 = v.bytes := by
  obtain rfl := memory_of_write h
  rw [store, ← write_write_append, read_write_of_disjoint _ _ (Or.inl (by simp))]
  exact length_bytes v ▸ read_write_self _ _ v.bytes

/-! ### What is written validates -/

/-- The meta of the page does not overlap the fields `id_` and `flags_` of the
`Page` object. -/
def ClearOfHeader (m : Mem) (p : Nat) : Prop :=
  Page.meta m p + 56 ≤ p ∨ p + 10 ≤ Page.meta m p

theorem header_of_write (hclear : ClearOfHeader m p) (h : write fnva64_buf v p m = .ok v' m') :
    Page.id m' p = v.txid % 2 ∧ Page.flags m' p = Page.flags m p ||| MetaPageFlag := by
  obtain rfl := memory_of_write h
  have hlen : (v.summed fnva64_buf).bytes.length
      + (toLE 8 (v.summed fnva64_buf).checksum.toNat).length = 56 := by simp
  rw [ClearOfHeader] at hclear
  constructor
  · rw [Page.id, store, load_write_of_disjoint _ _ (by rw [List.length_append]; omega),
      ← Page.id, withMetaHeader, Page.id_setFlags, Page.id_setID]
  · rw [Page.flags, store, load_write_of_disjoint _ _ (by rw [List.length_append]; omega),
      ← Page.flags, withMetaHeader, Page.flags_setFlags, Page.flags_setID, ← UInt16.or_assoc,
      UInt16.or_self]

/-- The stored object. -/
theorem load_of_write (h : write fnva64_buf v p m = .ok v' m') :
    load m' (Page.meta m p) = v.summed fnva64_buf := by
  obtain rfl := memory_of_write h
  exact load_store _ _ _

/-- Transactions in a row go to different pages, also where the ids wrap. -/
theorem succ_mod_two_ne (t : Txid) : (t + 1) % 2 ≠ t % 2 := by
  intro h
  have hnat := congrArg UInt64.toNat h
  have hone : (1 : UInt64).toNat = 1 := rfl
  have htwo : (2 : UInt64).toNat = 2 := rfl
  rw [UInt64.toNat_mod, UInt64.toNat_mod, UInt64.toNat_add, hone, htwo] at hnat
  omega

/-- **A written meta validates.**  `write` aborts, and leaves memory as it is,
exactly if the root bucket or the freelist is above the high-water mark.
Otherwise the meta is stored as it is, up to the checksum, and is valid; if it
does not overlap the header of its page, the page has the id that alternates
with the transactions, and one flag more. -/
theorem write_validates (fnva64_buf : List UInt8 → UInt64) (m : Mem) {v : Meta} (p : Nat)
    (hmagic : v.magic = Magic) (hversion : v.version = Version) :
    ((∃ e m', write fnva64_buf v p m = .error e m') ↔ AboveHighWater m v) ∧
    (∀ e m', write fnva64_buf v p m = .error e m' → m' = m) ∧
    ∀ v' m', write fnva64_buf v p m = .ok v' m' →
      (load m' (Page.meta m p)).unsummed = v.unsummed ∧
      (load m' (Page.meta m p)).validate fnva64_buf = .ok () ∧
      (ClearOfHeader m p →
        Page.id m' p = v.txid % 2 ∧ Page.flags m' p = Page.flags m p ||| MetaPageFlag ∧
        ∀ w w' q m₁ m₁', w.txid = v.txid + 1 → ClearOfHeader m₁ q →
          write fnva64_buf w q m₁ = .ok w' m₁' → Page.id m₁' q ≠ Page.id m' p) := by
  refine ⟨⟨?_, ?_⟩, ?_, fun v' m' h => ⟨?_, ?_, fun hclear => ?_⟩⟩
  · rintro ⟨e, m', he⟩
    by_contra hbelow
    rw [write_of_below fnva64_buf p hbelow] at he
    cases he
  · intro habove
    obtain ⟨e, he⟩ := write_of_above fnva64_buf p habove
    exact ⟨e, m, he⟩
  · intro e m' he
    by_cases habove : AboveHighWater m v
    · obtain ⟨e', he'⟩ := write_of_above fnva64_buf p habove
      rw [he'] at he
      exact (EStateM.Result.error.inj he).2.symm
    · rw [write_of_below fnva64_buf p habove] at he
      cases he
  · rw [load_of_write h]
    rfl
  · rw [load_of_write h]
    exact validate_summed fnva64_buf hmagic hversion
  · obtain ⟨hid, hflags⟩ := header_of_write hclear h
    refine ⟨hid, hflags, fun w w' q m₁ m₁' htxid hclear' h' => ?_⟩
    rw [(header_of_write hclear' h').1, hid, htxid]
    exact succ_mod_two_ne v.txid

/-- Whatever bucket the address is given, the bytes stay the same. -/
theorem rootBucket_store (m : Mem) (v : Meta) (b : BucketHeader) :
    v.rootBucket (BucketHeader.store m v.root.toNat b) = b :=
  BucketHeader.load_store m _ b

/-- A meta, and memory with its root bucket. -/
def sampleMeta : Meta := ⟨Magic, Version, 4096, 0, 8192, 2, 8, 5, 0⟩

def sampleMem (b : BucketHeader) : Mem :=
  BucketHeader.store (fun _ => 0) sampleMeta.root.toNat b

theorem rootBucket_sample (b : BucketHeader) : sampleMeta.rootBucket (sampleMem b) = b :=
  rootBucket_store _ sampleMeta b

/-- A page with its data area behind it, and one with its data area at the
`Page` object itself. -/
def pageMem : Mem := Page.construct (sampleMem ⟨3, 0⟩) 4096 0 LeafPageFlag 4128

def ownPageMem : Mem := Page.construct (sampleMem ⟨3, 0⟩) 4096 0 0 4096

theorem not_above_sample {m : Mem} (h : sampleMeta.rootBucket m = ⟨3, 0⟩) :
    ¬ AboveHighWater m sampleMeta := by
  rw [AboveHighWater, h]
  decide

theorem write_validates_sample :
    ∃ v' m', write (fun _ => 7) sampleMeta 4096 pageMem = .ok v' m' ∧
      (load m' 4128).validate (fun _ => 7) = .ok () ∧ Page.id m' 4096 = 1 ∧
      Page.flags m' 4096 = 6 := by
  have hwrite := write_of_below (fun _ => 7) 4096
    (not_above_sample (m := pageMem) (by decide +kernel))
  obtain ⟨-, -, hok⟩ := write_validates (fun _ => 7) pageMem (v := sampleMeta) 4096 rfl rfl
  obtain ⟨-, hvalid, hheader⟩ := hok _ _ hwrite
  obtain ⟨hid, hflags, -⟩ := hheader (Or.inr (by decide +kernel))
  exact ⟨_, _, hwrite, hvalid, hid, hflags⟩

/-- On a page that overlaps its data area, the meta is stored over the id. -/
theorem write_over_header :
    ∃ v' m', write (fun _ => 7) sampleMeta 4096 ownPageMem = .ok v' m' ∧
      Page.id m' 4096 ≠ sampleMeta.txid % 2 :=
  ⟨_, _, write_of_below _ 4096 (not_above_sample (by decide +kernel)), by decide +kernel⟩

/-! ### What the bytes determine -/

/-- What a meta says of the database: its fields, and the root bucket where
there is a pointer. -/
structure Logical where
  magic : UInt32
  version : UInt32
  page_size : UInt32
  flags : UInt32
  freelist : Pgid
  pgid : Pgid
  txid : Txid
  root : BucketHeader
  deriving DecidableEq, Repr

def logical (m : Mem) (v : Meta) : Logical where
  magic := v.magic
  version := v.version
  page_size := v.page_size
  flags := v.flags
  freelist := v.freelist
  pgid := v.pgid
  txid := v.txid
  root := v.rootBucket m

@[simp] theorem logical_root (m : Mem) (v : Meta) : (v.logical m).root = v.rootBucket m := rfl

/-- **When the bytes determine the meta.**  Equal bytes mean equal metas unless
the two agree in everything, the address of the root bucket included, and the
memory at that address has changed. -/
theorem bytes_determine_iff (m m' : Mem) (v v' : Meta) :
    (v.bytes = v'.bytes → v.logical m = v'.logical m') ↔
      (v.unsummed = v'.unsummed → v.rootBucket m = v'.rootBucket m') := by
  rw [bytes_inj]
  constructor
  · intro h heq
    rw [← logical_root, h heq, logical_root]
  · intro h heq
    have hroot := h heq
    simp only [unsummed, Meta.mk.injEq] at heq
    obtain ⟨hmagic, hversion, hpage_size, hflags, -, hfreelist, hpgid, htxid, -⟩ := heq
    simp only [logical, hmagic, hversion, hpage_size, hflags, hfreelist, hpgid, htxid, hroot]

/-- A meta with nothing in it but the address of a root bucket. -/
def pointing (a : UInt64) : Meta := ⟨0, 0, 0, 0, a, 0, 0, 0, 0⟩

/-- Between two memories the bytes are good for all metas if no bucket has
changed. -/
theorem bytes_determine_all_iff (m m' : Mem) :
    (∀ v v' : Meta, v.bytes = v'.bytes → v.logical m = v'.logical m') ↔
      ∀ a : UInt64, BucketHeader.load m a.toNat = BucketHeader.load m' a.toNat := by
  constructor
  · intro h a
    have hroot := (bytes_determine_iff m m' _ _).mp (h (pointing a) (pointing a)) rfl
    simpa only [rootBucket, pointing] using hroot
  · intro h v v'
    refine (bytes_determine_iff m m' v v').mpr fun heq => ?_
    have hroot : v.root = v'.root := congrArg (fun u => u.root) heq
    rw [rootBucket, rootBucket, hroot]
    exact h v'.root

/-- The root of the root bucket moves from page 3 to page 5, and its sequence
on to 1.  The bytes do not change, and nothing that reads them can tell. -/
theorem root_bucket_lost :
    sampleMeta.rootBucket (sampleMem ⟨3, 0⟩) = ⟨3, 0⟩ ∧
      sampleMeta.rootBucket (sampleMem ⟨5, 1⟩) = ⟨5, 1⟩ ∧
      ¬ (sampleMeta.bytes = sampleMeta.bytes →
        sampleMeta.logical (sampleMem ⟨3, 0⟩) = sampleMeta.logical (sampleMem ⟨5, 1⟩)) ∧
      ¬ ∃ decode : List UInt8 → BucketHeader, ∀ (m : Mem) (v : Meta),
        decode v.bytes = v.rootBucket m := by
  have hne : (⟨3, 0⟩ : BucketHeader) ≠ ⟨5, 1⟩ := by decide
  refine ⟨rootBucket_sample _, rootBucket_sample _, fun h => ?_, ?_⟩
  · have hroot := congrArg Logical.root (h rfl)
    simp only [logical, rootBucket_sample] at hroot
    exact hne hroot
  · rintro ⟨decode, h⟩
    have hdecode : ∀ b, decode sampleMeta.bytes = b :=
      fun b => (h (sampleMem b) sampleMeta).trans (rootBucket_sample b)
    exact hne ((hdecode _).symm.trans (hdecode _))

end Meta

end BoltCpp
