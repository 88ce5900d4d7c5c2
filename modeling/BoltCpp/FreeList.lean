/-
BoltCpp/FreeList.lean

The freelist (`freelist.h`, `freelist.cpp`): the ids that are free, the ids
that become free once no reader can see them any more, by the transaction
that freed them, and a set for looking up either.

`std::inplace_merge` is a parameter: what it does to a range that is not
sorted is its own business.  `release_ids` and `release_pending` say what
`release` does, `read_cache` and `reindex_cache` what the set holds after a
rebuild.
-/
import BoltCpp.Page
import BoltCpp.Lib.KeyedList
import BoltCpp.Lib.RangeMerge

namespace BoltCpp

open ByteMem RangeMerge

/-- Ids are ordered as unsigned numbers. -/
instance idOrder : LinearOrder UInt64 where
  le_refl a := UInt64.le_refl a
  le_trans a b c := UInt64.le_trans
  lt_iff_le_not_ge a b := by
    simp only [UInt64.lt_iff_toNat_lt, UInt64.le_iff_toNat_le]
    omega
  le_antisymm a b := UInt64.le_antisymm
  le_total a b := UInt64.le_total a b
  toDecidableLE := inferInstance
  toDecidableLT := inferInstance
  toDecidableEq := inferInstance

/-! ### Pending pages -/

/-- `std::map<txid_t, std::vector<pgid_t>>`, in the order of its keys. -/
structure Pending where
  entries : List (Txid × List Pgid)
  ascending : KeyedList.Sorted Prod.fst entries

namespace Pending

theorem ext {p q : Pending} (h : p.entries = q.entries) : p = q := by
  cases p
  cases q
  congr

/-- The ids in a part of the map. -/
def idsOf (entries : List (Txid × List Pgid)) : List Pgid := entries.flatMap Prod.snd

/-- All pending ids. -/
def ids (p : Pending) : List Pgid := idsOf p.entries

/-- The entries under the keys that satisfy `due`. -/
def under (p : Pending) (due : Txid → Bool) : Pending where
  entries := p.entries.filter fun e => due e.1
  ascending := p.ascending.sublist List.filter_sublist

@[simp] theorem entries_under (p : Pending) (due : Txid → Bool) :
    (p.under due).entries = p.entries.filter fun e => due e.1 := rfl

/-- Picking out entries twice. -/
theorem under_under (p : Pending) (due due' : Txid → Bool) :
    (p.under due).under due' = p.under fun k => due k && due' k :=
  ext (List.filter_filter.trans (by simp only [Bool.and_comm, entries_under]))

/-- What is due and what is not make up the map. -/
theorem ids_perm (p : Pending) (due : Txid → Bool) :
    ((p.under due).ids ++ (p.under fun k => !due k).ids).Perm p.ids := by
  rw [ids, ids, ids, idsOf, idsOf, idsOf, ← List.flatMap_append]
  exact (List.filter_append_perm _ p.entries).flatMap_right _

/-- Transaction 1 has freed page 7, transaction 2 page 4. -/
def sample : Pending where
  entries := [(1, [7]), (2, [4])]
  ascending := show List.Pairwise _ _ by decide

end Pending

/-! ### The list -/

structure FreeList where
  ids : List Pgid
  pending : Pending
  cache : Finset Pgid

namespace FreeList

/-- A default-constructed freelist. -/
def empty : FreeList where
  ids := []
  pending := ⟨[], List.Pairwise.nil⟩
  cache := ∅

/-- The loop of `release` over the map: `m`, and the entries it keeps. -/
def releaseLoop (txid : Txid) :
    List Pgid → List (Txid × List Pgid) → List Pgid × List (Txid × List Pgid)
  | m, [] => (m, [])
  | m, (key, pages) :: it =>
      if key ≤ txid then releaseLoop txid (m ++ pages) it
      else
        let (m, rest) := releaseLoop txid m it
        (m, (key, pages) :: rest)

theorem releaseLoop_eq (txid : Txid) (m : List Pgid) (it : List (Txid × List Pgid)) :
    releaseLoop txid m it
      = (m ++ Pending.idsOf (it.filter fun e => e.1 ≤ txid),
          it.filter fun e => !decide (e.1 ≤ txid)) := by
  induction it generalizing m with
  | nil => simp [releaseLoop, Pending.idsOf]
  | cons e it ih =>
      obtain ⟨key, pages⟩ := e
      -- an entry goes to `m` or stays, and the rest follows
      by_cases hkey : key ≤ txid
      · simp [releaseLoop, hkey, ih, Pending.idsOf]
      · simp [releaseLoop, hkey, ih, Pending.idsOf]

/-- `release`.  The ids of the transactions are appended and the whole is
merged in place; nothing sorts them first. -/
def release (inplace_merge : Merge Pgid) (f : FreeList) (txid : Txid) : FreeList :=
  let loop := releaseLoop txid [] f.pending.entries
  { f with
    ids := inplace_merge f.ids loop.1
    pending :=
      { entries := loop.2
        ascending := by
          rw [show loop = _ from releaseLoop_eq txid [] f.pending.entries]
          exact f.pending.ascending.sublist List.filter_sublist } }

/-- Insertion of a range into the set. -/
def insertAll (cache : Finset Pgid) (ids : List Pgid) : Finset Pgid :=
  ids.foldl (fun cache it => insert it cache) cache

def reindex (f : FreeList) : FreeList :=
  let cache := insertAll ∅ f.ids
  { f with cache := f.pending.entries.foldl (fun cache pair => insertAll cache pair.2) cache }

/-- Element `i` of the data area of a freelist page. -/
def pgidAt (m : Mem) (p i : Nat) : Pgid := UInt64.ofNat (m.load (Page.ptr m p + 8 * i) 8)

/-- `ids + idx` to `ids + count` -/
def pgidRange (m : Mem) (p idx count : Nat) : List Pgid :=
  (List.range' idx (count - idx)).map (pgidAt m p)

def read (f : FreeList) (m : Mem) (p : Nat) : FreeList :=
  let count := (Page.count m p).toNat
  let (idx, count) := if count = 0xFFFF then (1, (pgidAt m p 0).toNat) else (0, count)
  let f :=
    if count > 0 then
      { f with ids := (f.ids ++ pgidRange m p idx count).insertionSort (· ≤ ·) }
    else f
  f.reindex

/-! #### Functions without a body -/

def rollback (f : FreeList) (_txid : Txid) : FreeList := f
def reload (f : FreeList) (_p : Nat) : FreeList := f
def size (_f : FreeList) : Int := 0
def free_count (_f : FreeList) : Int := 0
def pending_count (_f : FreeList) : Int := 0

/-! ### What the operations do -/

variable {inplace_merge : Merge Pgid} (f : FreeList)

theorem release_ids (txid : Txid) :
    (f.release inplace_merge txid).ids
      = inplace_merge f.ids (f.pending.under fun k => k ≤ txid).ids := by
  simp only [release, releaseLoop_eq, List.nil_append]
  rfl

theorem release_pending (txid : Txid) :
    (f.release inplace_merge txid).pending = f.pending.under fun k => !decide (k ≤ txid) := by
  refine Pending.ext ?_
  simp only [release, releaseLoop_eq]
  rfl

@[simp] theorem release_cache (txid : Txid) :
    (f.release inplace_merge txid).cache = f.cache := rfl

theorem insertAll_eq (cache : Finset Pgid) (ids : List Pgid) :
    insertAll cache ids = cache ∪ ids.toFinset := by
  induction ids generalizing cache with
  | nil => simp [insertAll]
  | cons x ids ih =>
      have hstep : insertAll cache (x :: ids) = insertAll (insert x cache) ids := rfl
      rw [hstep, ih, List.toFinset_cons, Finset.insert_union, Finset.union_insert]

@[simp] theorem reindex_ids : f.reindex.ids = f.ids := rfl

@[simp] theorem reindex_pending : f.reindex.pending = f.pending := rfl

/-- A rebuilt cache holds the free and the pending ids. -/
theorem reindex_cache : f.reindex.cache = (f.ids ++ f.pending.ids).toFinset := by
  have hloop : ∀ (entries : List (Txid × List Pgid)) (cache : Finset Pgid),
      entries.foldl (fun cache pair => insertAll cache pair.2) cache
        = cache ∪ (Pending.idsOf entries).toFinset := by
    intro entries
    induction entries with
    | nil => simp [Pending.idsOf]
    | cons e entries ih =>
        intro cache
        rw [List.foldl_cons, ih, insertAll_eq, Finset.union_assoc, ← List.toFinset_append]
        rfl
  rw [reindex, hloop, insertAll_eq, Finset.empty_union, List.toFinset_append]
  rfl

@[simp] theorem read_pending (m : Mem) (p : Nat) : (f.read m p).pending = f.pending := by
  rw [read]
  split
  rw [reindex_pending]
  split <;> rfl

theorem read_cache (m : Mem) (p : Nat) :
    (f.read m p).cache = ((f.read m p).ids ++ (f.read m p).pending.ids).toFinset := by
  rw [read]
  split
  rw [reindex_cache, reindex_ids, reindex_pending]

/-- `read` sorts, unless it has nothing to add. -/
theorem read_ascending (m : Mem) (p : Nat) (h : Ascending f.ids) :
    Ascending (f.read m p).ids := by
  rw [read]
  split
  rw [reindex_ids]
  split
  · exact List.pairwise_insertionSort _ _
  · exact h

end FreeList

end BoltCpp
