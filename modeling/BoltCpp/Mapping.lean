/-
BoltCpp/Mapping.lean

Which bytes of the file a page id leads to.

The file is mapped with the length the options ask for, whatever its size
(`mapped_iff`), and pages are addressed with `pageSize_`, which is whatever
the storage held (`onePageSize_iff`).  The offset of a page is an `int`, which
wraps around from 2 GiB on (`addressed_iff`).
-/
import BoltCpp.Open
import BoltCpp.Readers

namespace BoltCpp

open ByteMem

variable {sys : System} {storage db : Database} {option : Option Options}

/-! ### The mapped length -/

theorem toInt32_of_isInt {i : Int} (h : IsInt i) : toInt32 i = i := by
  obtain ⟨hlo, hhi⟩ := h
  rw [toInt32, Int.bmod_eq_of_le] <;> omega

theorem toInt32_emod (i : Int) : toInt32 (i % 2 ^ 64) = toInt32 i := by
  rw [toInt32, toInt32, Int.bmod_def, Int.bmod_def]
  omega

/-- A number that has left the positive half of `int` is negative there. -/
theorem lt_of_toInt32_nonneg {i : Int} (hlt : i < 2 ^ 32) (h : 0 ≤ toInt32 i) :
    i < 2 ^ 31 := by
  rw [toInt32, Int.bmod_def] at h
  omega

theorem page_eq (db : DB) (id : Pgid) :
    db.page id = (db.data_ + toInt32 (id.toNat * db.pageSize_)).toNat := by
  rw [DB.page, toInt32_emod]

/-- `k` pages of size `ps` in strides of `g` fit a mapping of length `sz`.  The
first that did not would start below `sz + g`, where nothing wraps around
to a place that fits. -/
theorem strides_fit {g sz ps : Int} {k : Nat} (hg : IsInt g) (hsz : IsInt sz) (hps : 0 < ps)
    (hk : 0 < k) (hfit : k * ps ≤ sz) :
    (∀ j : Nat, j < k → 0 ≤ toInt32 (j * g) ∧ toInt32 (j * g) + ps ≤ sz) ↔
      k = 1 ∨ (0 ≤ g ∧ (k - 1) * g + ps ≤ sz) := by
  have hsz' := hsz.2
  constructor
  · intro h
    by_cases hone : k = 1
    · exact Or.inl hone
    have hg0 : 0 ≤ g := by
      have := (h 1 (by omega)).1
      rwa [Nat.cast_one, one_mul, toInt32_of_isInt hg] at this
    have hgfit : g + ps ≤ sz := by
      have := (h 1 (by omega)).2
      rwa [Nat.cast_one, one_mul, toInt32_of_isInt hg] at this
    have hall : ∀ j : Nat, j < k → j * g + ps ≤ sz := by
      intro j
      induction j with
      | zero =>
          intro _
          rw [Nat.cast_zero, zero_mul]
          omega
      | succ j ih =>
          intro hj
          have hprev := ih (by omega)
          have hnonneg : 0 ≤ (j : Int) * g := Int.mul_nonneg (by omega) hg0
          have hnext : ((j + 1 : Nat) : Int) * g = j * g + g := by push_cast; ring
          obtain ⟨h0, hle⟩ := h (j + 1) hj
          rw [hnext] at h0 hle ⊢
          have hlt := lt_of_toInt32_nonneg (by omega) h0
          rwa [toInt32_of_isInt ⟨by omega, hlt⟩] at hle
    refine Or.inr ⟨hg0, ?_⟩
    have hlast := hall (k - 1) (by omega)
    rwa [Nat.cast_sub hk, Nat.cast_one] at hlast
  · rintro (rfl | ⟨hg0, hlast⟩) j hj
    · obtain rfl : j = 0 := by omega
      rw [Nat.cast_zero, zero_mul, toInt32_of_isInt ⟨by decide, by decide⟩]
      omega
    · have hle : (j : Int) * g ≤ (k - 1) * g :=
        Int.mul_le_mul_of_nonneg_right (by omega) hg0
      have hnonneg : 0 ≤ (j : Int) * g := Int.mul_nonneg (by omega) hg0
      rw [toInt32_of_isInt ⟨by omega, by omega⟩]
      omega

/-- The mapping covers the file and has at least the length `sz`, and every
page of the file lies inside it. -/
structure Mapped (sys : System) (sz : Int) (db : Database) : Prop where
  file : (sys.size : Int) ≤ db.data_sz_
  option : sz ≤ db.data_sz_
  page : ∀ id : Pgid, (id.toNat + 1) * sys.recorded ≤ sys.size →
    db.data_ ≤ db.toDB.page id ∧
      (db.toDB.page id : Int) + sys.recorded ≤ db.data_ + db.data_sz_

/-- A page lies inside the mapping if its offset does. -/
theorem page_inside {data : Nat} (hdata : 0 < data) (pos ps sz : Int) :
    ((data : Int) ≤ (data + pos).toNat ∧ ((data + pos).toNat : Int) + ps ≤ data + sz) ↔
      0 ≤ pos ∧ pos + ps ≤ sz := by
  omega

/-- The pages of the file lie inside the mapping, told by their numbers. -/
theorem pages_inside_iff {sz : Int} {k : Nat} (hc : Constructed sys storage sz db)
    (hps : 0 < sys.recorded) (hsize : sys.size = k * sys.recorded) (hk : k < 2 ^ 64) :
    (∀ id : Pgid, (id.toNat + 1) * sys.recorded ≤ sys.size →
      db.data_ ≤ db.toDB.page id ∧
        (db.toDB.page id : Int) + sys.recorded ≤ db.data_ + db.data_sz_) ↔
      ∀ j : Nat, j < k → 0 ≤ toInt32 (j * storage.pageSize_) ∧
        toInt32 (j * storage.pageSize_) + sys.recorded ≤ sz := by
  have hinside : ∀ id : Pgid,
      (db.data_ ≤ db.toDB.page id ∧
        (db.toDB.page id : Int) + sys.recorded ≤ db.data_ + db.data_sz_) ↔
        0 ≤ toInt32 (id.toNat * storage.pageSize_) ∧
          toInt32 (id.toNat * storage.pageSize_) + sys.recorded ≤ sz := by
    intro id
    rw [page_eq, hc.pageSize, hc.data_sz, ← page_inside hc.data_pos]
    norm_cast
  have hnumber : ∀ id : Pgid, (id.toNat + 1) * sys.recorded ≤ sys.size ↔ id.toNat < k := by
    intro id
    rw [hsize, Nat.mul_le_mul_right_iff hps, Nat.succ_le_iff]
  simp only [hinside, hnumber]
  constructor
  · intro h j hj
    have hj' : (UInt64.ofNat j).toNat = j := UInt64.toNat_ofNat_of_lt' (show j < 2 ^ 64 by omega)
    have := h (UInt64.ofNat j)
    rw [hj'] at this
    exact this hj
  · exact fun h id hid => h _ hid

/-- **When the file is mapped.**  An existing file of `k` pages is mapped with
the length that is asked for; if that works, it is enough exactly if it is at
least the size of the file, and the pages, laid out in strides of `pageSize_`
instead of their size, still fit. -/
theorem mapped_iff {k : Nat} (hk : 0 < k) (hps : 0 < sys.recorded)
    (hsize : sys.size = k * sys.recorded) (hstorage : IsInt storage.pageSize_)
    (hsz : IsInt (mmapSize option)) :
    (∀ db, DB.construct sys storage option = .ok db → Mapped sys (mmapSize option) db) ↔
      sys.maps (mmapSize option) = none ∨
        (sys.size ≤ mmapSize option ∧
          (k = 1 ∨ (0 ≤ storage.pageSize_ ∧
            (k - 1) * storage.pageSize_ + sys.recorded ≤ mmapSize option))) := by
  have hspec := construct_spec sys storage option
  have hexists : ¬ sys.size = 0 := by
    rw [hsize]
    exact Nat.ne_of_gt (Nat.mul_pos hk hps)
  cases hmaps : sys.maps (mmapSize option) with
  | none =>
      rw [if_pos (Or.inr hmaps)] at hspec
      obtain ⟨e, he⟩ := hspec
      simp [he]
  | some found =>
      rw [if_neg (by simp [hexists, hmaps])] at hspec
      obtain ⟨db, hdb, hc⟩ := hspec
      have hdone : (∀ db, DB.construct sys storage option = .ok db →
          Mapped sys (mmapSize option) db) ↔ Mapped sys (mmapSize option) db := by
        rw [hdb]
        exact ⟨fun h => h db rfl, fun h db' h' => by cases h'; exact h⟩
      rw [hdone, or_iff_right (by simp)]
      have hlt := hsz.2
      have hkle : k ≤ sys.size := by
        rw [hsize]
        exact Nat.le_mul_of_pos_right k hps
      have hpages : (sys.size : Int) ≤ mmapSize option →
          ((∀ id : Pgid, (id.toNat + 1) * sys.recorded ≤ sys.size →
            db.data_ ≤ db.toDB.page id ∧
              (db.toDB.page id : Int) + sys.recorded ≤ db.data_ + db.data_sz_) ↔
            k = 1 ∨ (0 ≤ storage.pageSize_ ∧
              (k - 1) * storage.pageSize_ + sys.recorded ≤ mmapSize option)) := by
        intro hle
        have hfit : (k : Int) * sys.recorded ≤ mmapSize option := by
          rw [← Nat.cast_mul, ← hsize]
          exact hle
        rw [pages_inside_iff hc hps hsize (by omega),
          strides_fit hstorage hsz (by omega) hk hfit]
      constructor
      · intro h
        have hle : (sys.size : Int) ≤ mmapSize option := hc.data_sz ▸ h.file
        exact ⟨hle, (hpages hle).mp h.page⟩
      · rintro ⟨hle, h⟩
        exact ⟨hc.data_sz ▸ hle, hc.data_sz ▸ le_rfl, (hpages hle).mpr h⟩

/-! ### Two page sizes -/

/-- All pages are addressed, sized and allocated with `page_size_`. -/
structure OnePageSize (sys : System) (db : Database) : Prop where
  page_size : db.toDB.page_size = db.page_size_
  page_pool : db.page_pool_.new_page_ = db.page_size_
  tx_size : ∀ (tx : Transaction) (m : Meta), tx.db_ = some db.toDB → tx.meta_ = some m →
    tx.size = .ok (((m.pgid.toNat : Int).bmod (2 ^ 64) * db.page_size_).bmod (2 ^ 64))
  page : ∀ id : Pgid, id.toNat * sys.recorded < 2 ^ 31 →
    db.toDB.page id = DB.page_in_buffer db db.data_ id

/-- With one size, a page is where `page_in_buffer` puts it. -/
theorem page_eq_page_in_buffer {r : Nat} (hpageSize : db.pageSize_ = toInt32 r)
    (hpage_size : db.page_size_ = toInt32 r) {id : Pgid} (hid : id.toNat * r < 2 ^ 31) :
    db.toDB.page id = DB.page_in_buffer db db.data_ id := by
  rw [page_eq, DB.page_in_buffer, hpageSize, hpage_size]
  rcases Nat.eq_zero_or_pos id.toNat with h0 | hpos
  · rw [h0, Nat.cast_zero, zero_mul, toInt32_of_isInt ⟨by decide, by decide⟩]
    simp
  · have hr : r < 2 ^ 31 := lt_of_le_of_lt (Nat.le_mul_of_pos_left r hpos) hid
    rw [toInt32_of_lt hr, ← Nat.cast_mul, toInt32_of_lt hid]
    omega

/-- **When there is one page size**, for a new file and for any page size that
an existing one records: if the storage happened to hold it. -/
theorem onePageSize_iff (h : DB.construct sys storage option = .ok db) :
    OnePageSize sys db ↔ storage.pageSize_ = toInt32 sys.recorded := by
  have hc := construct_ok h
  constructor
  · intro hone
    rw [← hc.pageSize, ← hc.page_size]
    exact hone.page_size
  · intro hstorage
    have hsame : db.pageSize_ = db.page_size_ := by rw [hc.pageSize, hstorage, hc.page_size]
    refine ⟨hsame, ?_, ?_, ?_⟩
    · rw [hc.page_pool, hstorage, hc.page_size]
    · intro tx m hdb hm
      simp only [Transaction.size, hdb, hm, DB.page_size, hsame]
      rfl
    · intro id hid
      exact page_eq_page_in_buffer (hc.pageSize.trans hstorage) hc.page_size hid

/-! ### Large files -/

/-- The pages below `pgid` are in their places: at multiples of the page size,
inside what `Tx::size` says, and clear of each other. -/
structure Addressed (tx : Transaction) (db : DB) (pgid : Pgid) : Prop where
  offset : ∀ id, id < pgid → (db.page id : Int) = db.data_ + id.toNat * db.pageSize_
  inside : ∀ id, id < pgid → ∃ size, tx.size = .ok size ∧
    db.data_ ≤ db.page id ∧ (db.page id : Int) < db.data_ + size
  disjoint : ∀ id id', id < pgid → id' < pgid → id ≠ id' →
    (db.page id : Int) + db.pageSize_ ≤ db.page id' ∨
      (db.page id' : Int) + db.pageSize_ ≤ db.page id

/-- The size of a database that 63 bits can count. -/
theorem size_eq {tx : Transaction} {db : DB} {v : Meta} (hdb : tx.db_ = some db)
    (hv : tx.meta_ = some v) (hps : 0 < db.pageSize_)
    (hsize : v.pgid.toNat * db.pageSize_ < 2 ^ 63) :
    tx.size = .ok (v.pgid.toNat * db.pageSize_) := by
  have hpgid : (v.pgid.toNat : Int) * 1 ≤ v.pgid.toNat * db.pageSize_ :=
    Int.mul_le_mul_of_nonneg_left hps (by omega)
  have hbmod : ∀ i : Int, 0 ≤ i → i < 2 ^ 63 → i.bmod (2 ^ 64) = i := by
    intro i h0 hi
    rw [Int.bmod_eq_of_le] <;> omega
  rw [Transaction.size, hdb, hv]
  show Except.ok _ = _
  rw [DB.page_size, hbmod v.pgid.toNat (by omega) (by omega), hbmod _ (by omega) hsize]

/-- The address of a page whose offset an `int` can hold. -/
theorem page_of_lt {db : DB} {id : Pgid} (hps : 0 < db.pageSize_)
    (hid : id.toNat * db.pageSize_ < 2 ^ 31) :
    (db.page id : Int) = db.data_ + id.toNat * db.pageSize_ := by
  have h0 : 0 ≤ (id.toNat : Int) * db.pageSize_ := Int.mul_nonneg (by omega) (by omega)
  rw [page_eq, toInt32_of_isInt ⟨by omega, hid⟩]
  omega

/-- A page further on is not where it belongs. -/
theorem lt_of_page_eq {db : DB} {id : Pgid} (hps : 0 < db.pageSize_)
    (h : (db.page id : Int) = db.data_ + id.toNat * db.pageSize_) :
    id.toNat * db.pageSize_ < 2 ^ 31 := by
  have h0 : 0 ≤ (id.toNat : Int) * db.pageSize_ := Int.mul_nonneg (by omega) (by omega)
  have hlt := toInt32_lt (id.toNat * db.pageSize_)
  rw [page_eq] at h
  omega

/-- **When page addresses do not wrap.**  All pages below the high-water mark
are in their places if the last one starts below 2 GiB. -/
theorem addressed_iff {tx : Transaction} {db : DB} {v : Meta} (hdb : tx.db_ = some db)
    (hv : tx.meta_ = some v) (hps : 0 < db.pageSize_)
    (hsize : v.pgid.toNat * db.pageSize_ < 2 ^ 63) :
    Addressed tx db v.pgid ↔ (v.pgid.toNat - 1) * db.pageSize_ < 2 ^ 31 := by
  constructor
  · intro h
    rcases Nat.eq_zero_or_pos v.pgid.toNat with hzero | hpos
    · rw [hzero]
      omega
    -- the last page
    have hlast : (UInt64.ofNat (v.pgid.toNat - 1)).toNat = v.pgid.toNat - 1 :=
      UInt64.toNat_ofNat_of_lt' (Nat.lt_of_le_of_lt (Nat.sub_le _ _) v.pgid.toNat_lt)
    have hlt : UInt64.ofNat (v.pgid.toNat - 1) < v.pgid := by
      rw [UInt64.lt_iff_toNat_lt, hlast]
      omega
    have hpage := lt_of_page_eq hps (h.offset _ hlt)
    rwa [hlast, Nat.cast_sub hpos, Nat.cast_one] at hpage
  · intro h
    have hoffset : ∀ id : Pgid, id < v.pgid →
        (db.page id : Int) = db.data_ + id.toNat * db.pageSize_ := by
      intro id hid
      have hlt : id.toNat < v.pgid.toNat := UInt64.lt_iff_toNat_lt.mp hid
      have hle : (id.toNat : Int) * db.pageSize_ ≤ (v.pgid.toNat - 1) * db.pageSize_ :=
        Int.mul_le_mul_of_nonneg_right (by omega) (by omega)
      exact page_of_lt hps (by omega)
    have hstride : ∀ j k : Nat, j < k → (j : Int) * db.pageSize_ + db.pageSize_
        ≤ k * db.pageSize_ := by
      intro j k hjk
      have hle : ((j : Int) + 1) * db.pageSize_ ≤ k * db.pageSize_ :=
        Int.mul_le_mul_of_nonneg_right (by omega) (by omega)
      rwa [add_mul, one_mul] at hle
    refine ⟨hoffset, ?_, ?_⟩
    · intro id hid
      have h0 : 0 ≤ (id.toNat : Int) * db.pageSize_ := Int.mul_nonneg (by omega) (by omega)
      have hend := hstride _ _ (UInt64.lt_iff_toNat_lt.mp hid)
      refine ⟨_, size_eq hdb hv hps hsize, ?_⟩
      rw [hoffset id hid]
      have hpage := hoffset id hid
      omega
    · intro id id' hid hid' hne
      rw [hoffset id hid, hoffset id' hid']
      have hne' : id.toNat ≠ id'.toNat := fun heq => hne (UInt64.toNat_inj.mp heq)
      rcases Nat.lt_or_gt_of_ne hne' with hlt | hlt
      · have := hstride _ _ hlt
        omega
      · have := hstride _ _ hlt
        omega

/-- A transaction over a mapping with pages of 4096 bytes. -/
def sampleTx (pgid : Pgid) : Transaction where
  db_ := some ⟨65536, 4096⟩
  pages_ _ := none
  writable_ := false
  managed_ := false
  meta_ := some ⟨Magic, Version, 4096, 0, 0, 2, pgid, 0, 0⟩
  stats_ := ⟨0, 0, 0, 0, 0, 0, 0, 0, 0, 0, 0, 0⟩

theorem addressed_sample : Addressed (sampleTx 4) ⟨65536, 4096⟩ 4 :=
  (addressed_iff (v := ⟨Magic, Version, 4096, 0, 0, 2, 4, 0, 0⟩) rfl rfl (by decide)
    (by decide)).mpr (by decide)

/-- Behind 4 GiB is page 0 again. -/
theorem pages_alias :
    (sampleTx 1048577).size = .ok 4294971392 ∧
      DB.page ⟨65536, 4096⟩ 1048576 = DB.page ⟨65536, 4096⟩ 0 ∧
        ¬ Addressed (sampleTx 1048577) ⟨65536, 4096⟩ 1048577 := by
  have hpage : DB.page ⟨65536, 4096⟩ 1048576 = DB.page ⟨65536, 4096⟩ 0 := by decide
  have hsize : (sampleTx 1048577).size = .ok (1048577 * 4096) :=
    size_eq (v := ⟨Magic, Version, 4096, 0, 0, 2, 1048577, 0, 0⟩)
      (show (sampleTx 1048577).db_ = some ⟨65536, 4096⟩ from rfl) rfl (by decide) (by decide)
  refine ⟨hsize, hpage, fun h => ?_⟩
  have hclear := h.disjoint 1048576 0 (by decide) (by decide) (by decide)
  rw [hpage, or_self] at hclear
  exact absurd hclear (by decide)

/-! ### A file of four pages -/

/-- FNV-1a -/
def fnva64 (buf : List UInt8) : UInt64 :=
  buf.foldl (fun h b => (h ^^^ b.toUInt64) * 0x100000001B3) 0xCBF29CE484222325

/-- An existing file of 16384 bytes; its meta page records 4096. -/
def sampleSystem : System where
  getpagesize := 4096
  fnva64_buf := fnva64
  size := 16384
  mem :=
    Meta.store (Page.construct (fun _ => 0) 8192 0 MetaPageFlag 8224) 8224
      ⟨Magic, Version, 4096, 0, 0, 2, 4, 0, 0⟩
  buf := 8192
  fdatasync := true
  mmap sz := if 0 < sz then some (65536, fun _ => 0) else none
  madvise _ _ := true
  getpagesize_pos := by decide
  getpagesize_lt := by decide
  mmap_pos sz b m h := by
    split at h
    · cases h
      decide
    · cases h

theorem recorded_sampleSystem : sampleSystem.recorded = 4096 := by decide +kernel

/-- Storage that holds `pageSize`. -/
def sampleStorage (pageSize : Int) : Database :=
  { (idleState .sample).toDatabase with pageSize_ := pageSize }

def sampleOptions (sz : Int) : Option Options := some ⟨false, sz⟩

theorem construct_sample (pageSize : Int) {sz : Int} (hsz : 0 < sz) :
    ∃ db, DB.construct sampleSystem (sampleStorage pageSize) (sampleOptions sz) = .ok db ∧
      Constructed sampleSystem (sampleStorage pageSize) sz db := by
  have hmaps : sampleSystem.maps sz ≠ none := by
    simp [System.maps, sampleSystem, hsz]
  have hspec := construct_spec sampleSystem (sampleStorage pageSize) (sampleOptions sz)
  rw [if_neg (fun h => h.elim (fun h => absurd h.1 (by decide)) hmaps)] at hspec
  exact hspec

/-- All of the file is mapped, in strides of the right size. -/
theorem mapped_sample :
    ∃ db, DB.construct sampleSystem (sampleStorage 4096) (sampleOptions 16384) = .ok db ∧
      Mapped sampleSystem 16384 db := by
  obtain ⟨db, hdb, -⟩ := construct_sample 4096 (show (0 : Int) < 16384 by decide)
  have hps := recorded_sampleSystem
  refine ⟨db, hdb, (mapped_iff (show 0 < 4 by decide) (by omega) (by rw [hps]; rfl)
    ⟨by decide, by decide⟩ ⟨by decide, by decide⟩).mpr (Or.inr ⟨by decide, Or.inr ?_⟩) db hdb⟩
  rw [hps]
  exact ⟨by decide, by decide⟩

/-- Page 3 of the file lies behind a mapping of one page. -/
theorem short_mapping :
    ∃ db, DB.construct sampleSystem (sampleStorage 4096) (sampleOptions 4096) = .ok db ∧
      db.data_sz_ = 4096 ∧ db.toDB.page 3 = db.data_ + 12288 ∧
        ¬ Mapped sampleSystem 4096 db := by
  obtain ⟨db, hdb, hc⟩ := construct_sample 4096 (show (0 : Int) < 4096 by decide)
  refine ⟨db, hdb, hc.data_sz, ?_, fun h => ?_⟩
  · rw [page_eq, hc.pageSize]
    rfl
  · have := h.file
    rw [hc.data_sz] at this
    exact absurd this (by decide)

theorem onePageSize_sample :
    ∃ db, DB.construct sampleSystem (sampleStorage 4096) (sampleOptions 16384) = .ok db ∧
      OnePageSize sampleSystem db := by
  obtain ⟨db, hdb, -⟩ := construct_sample 4096 (show (0 : Int) < 16384 by decide)
  refine ⟨db, hdb, (onePageSize_iff hdb).mpr ?_⟩
  rw [recorded_sampleSystem]
  decide

/-- On storage that was zero, page 1 is at the address of page 0. -/
theorem two_page_sizes :
    ∃ db, DB.construct sampleSystem (sampleStorage 0) (sampleOptions 16384) = .ok db ∧
      db.toDB.page 1 = db.data_ ∧ DB.page_in_buffer db db.data_ 1 = db.data_ + 4096 ∧
        ¬ OnePageSize sampleSystem db := by
  obtain ⟨db, hdb, hc⟩ := construct_sample 0 (show (0 : Int) < 16384 by decide)
  have hpage_size : db.page_size_ = 4096 := by
    rw [hc.page_size, recorded_sampleSystem]
    decide
  refine ⟨db, hdb, ?_, ?_, fun h => ?_⟩
  · rw [page_eq, hc.pageSize]
    rfl
  · rw [DB.page_in_buffer, hpage_size]
    rfl
  · have : db.pageSize_ = db.page_size_ := h.page_size
    rw [hc.pageSize, hpage_size] at this
    exact absurd this (by decide)

end BoltCpp
