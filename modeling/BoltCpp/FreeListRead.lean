/-
BoltCpp/FreeListRead.lean

What `FreeList::read` makes of a page.

`listed` is the page's own content: as many ids as it counts or, where the
count is the largest 16-bit number, as many as the first element says, behind
that element.  `read` appends `copied` to what the freelist held and sorts
(`read_perm`).

The range of the overflow format ends where the count says although it starts
one element later, so an id is left out (`decodes_iff`).  And nothing clears
the ids first: `read` initialises a freelist without ids only, and a second
`read` of the same page doubles its ids (`initialises_iff`,
`read_read_iff`).
-/
import BoltCpp.FreeList

namespace BoltCpp

open ByteMem RangeMerge

namespace FreeList

/-! ### The page -/

/-- The ids a freelist page lists. -/
def listed (m : Mem) (p : Nat) : List Pgid :=
  if (Page.count m p).toNat = 0xFFFF then
    (List.range (pgidAt m p 0).toNat).map fun i => pgidAt m p (1 + i)
  else (List.range (Page.count m p).toNat).map (pgidAt m p)

/-- The ids `read` copies from it. -/
def copied (m : Mem) (p : Nat) : List Pgid :=
  if (Page.count m p).toNat = 0xFFFF then pgidRange m p 1 (pgidAt m p 0).toNat
  else pgidRange m p 0 (Page.count m p).toNat

/-- A page object at 0 whose data area, at 32, holds these ids. -/
def listPage (count : UInt32) (ids : List Pgid) : Mem :=
  let m := Page.setCount (Page.construct (fun _ => 0) 0 2 FreelistPageFlag 32) 0 count
  m.write 32 (ids.flatMap fun id => Mem.toLE 8 id.toNat)

variable (m : Mem) (p : Nat)

@[simp] theorem length_pgidRange (idx count : Nat) :
    (pgidRange m p idx count).length = count - idx := by
  simp [pgidRange]

theorem pgidRange_zero (count : Nat) :
    pgidRange m p 0 count = (List.range count).map (pgidAt m p) := by
  rw [pgidRange, Nat.sub_zero, List.range_eq_range']

/-- Outside the overflow format the page's ids are copied. -/
theorem copied_eq_listed (h : (Page.count m p).toNat ≠ 0xFFFF) : copied m p = listed m p := by
  rw [copied, listed, if_neg h, if_neg h, pgidRange_zero]

/-- In the overflow format one id is missing, if there is any. -/
theorem length_copied (h : (Page.count m p).toNat = 0xFFFF) :
    (copied m p).length = (listed m p).length - 1 := by
  simp [copied, listed, h]

theorem length_listed (h : (Page.count m p).toNat = 0xFFFF) :
    (listed m p).length = (pgidAt m p 0).toNat := by
  simp [listed, h]

/-- When `read` copies what the page lists. -/
theorem copied_perm_iff :
    (copied m p).Perm (listed m p) ↔
      (Page.count m p).toNat ≠ 0xFFFF ∨ pgidAt m p 0 = 0 := by
  by_cases hcount : (Page.count m p).toNat = 0xFFFF
  · have hzero : pgidAt m p 0 = 0 ↔ (pgidAt m p 0).toNat = 0 := by
      rw [← UInt64.toNat_inj]
      rfl
    rw [hzero]
    constructor
    · intro hperm
      have hlen := hperm.length_eq
      rw [length_copied m p hcount, length_listed m p hcount] at hlen
      exact .inr (by omega)
    · rintro (h | h)
      · exact absurd hcount h
      · simp [copied, listed, hcount, h, pgidRange]
  · rw [copied_eq_listed m p hcount]
    exact ⟨fun _ => .inl hcount, fun _ => .refl _⟩

/-! ### The call -/

variable (f : FreeList)

theorem ext {f g : FreeList} (hids : f.ids = g.ids) (hpending : f.pending = g.pending)
    (hcache : f.cache = g.cache) : f = g := by
  cases f
  cases g
  congr

/-- The ids after `read`, up to their order. -/
theorem read_perm : (f.read m p).ids.Perm (f.ids ++ copied m p) := by
  -- `idx` and `count` as the loop has them, in either format
  have hloop : ∀ idx count : Nat,
      (if count > 0 then
        { f with ids := (f.ids ++ pgidRange m p idx count).insertionSort (· ≤ ·) }
      else f).reindex.ids.Perm (f.ids ++ pgidRange m p idx count) := by
    intro idx count
    rw [reindex_ids]
    split
    · exact List.perm_insertionSort _ _
    · obtain rfl : count = 0 := by omega
      simp [pgidRange]
  rw [read, copied]
  by_cases hcount : (Page.count m p).toNat = 0xFFFF
  · simp only [hcount, if_true]
    exact hloop 1 _
  · simp only [hcount, if_false]
    exact hloop 0 _

/-- A freelist that holds these free ids, in order, beside these pending ones,
and has all of them in its cache. -/
structure Lists (f : FreeList) (ids : List Pgid) (pending : Pending) : Prop where
  ascending : Ascending f.ids
  perm : f.ids.Perm ids
  pending_eq : f.pending = pending
  cache_eq : f.cache = (ids ++ pending.ids).toFinset

/-- `read` does what it should where it has the right ids. -/
theorem read_lists_iff (hf : Ascending f.ids) :
    Lists (f.read m p) (listed m p) f.pending ↔ (f.ids ++ copied m p).Perm (listed m p) := by
  constructor
  · exact fun h => (read_perm m p f).symm.trans h.perm
  · intro hperm
    have hids := (read_perm m p f).trans hperm
    refine ⟨f.read_ascending m p hf, hids, f.read_pending m p, ?_⟩
    rw [read_cache, read_pending]
    exact List.toFinset_eq_of_perm _ _ (hids.append_right _)

/-- **When the decoder reads exactly the stored ids.**  An empty freelist
comes to hold the ids the page lists unless the page is in the overflow format
and lists any. -/
theorem decodes_iff :
    Lists (empty.read m p) (listed m p) empty.pending ↔
      (Page.count m p).toNat ≠ 0xFFFF ∨ pgidAt m p 0 = 0 := by
  have hnil : empty.ids = [] := rfl
  rw [read_lists_iff m p empty List.Pairwise.nil, hnil, List.nil_append, copied_perm_iff m p]

/-- An overflow page that lists 7 and 9, and a plain one that lists 7. -/
def overflowPage : Mem := listPage 0xFFFF [2, 7, 9]

def plainPage : Mem := listPage 1 [7]

/-- Page 9 is lost. -/
theorem read_drops_last :
    listed overflowPage 0 = [7, 9] ∧ (empty.read overflowPage 0).ids = [7] ∧
      ¬ Lists (empty.read overflowPage 0) (listed overflowPage 0) empty.pending := by
  have hids : (empty.read overflowPage 0).ids = [7] := by decide
  have hlisted : listed overflowPage 0 = [7, 9] := by decide
  refine ⟨hlisted, hids, fun h => ?_⟩
  have hlen := h.perm.length_eq
  rw [hids, hlisted] at hlen
  exact absurd hlen (by decide)

/-! ### Reading again -/

variable {m p} (hcount : (Page.count m p).toNat < 0xFFFF)

include hcount

/-- The ids after `read` of a page in the plain format. -/
theorem length_read :
    (f.read m p).ids.length = f.ids.length + (Page.count m p).toNat := by
  have hne : (Page.count m p).toNat ≠ 0xFFFF := by omega
  rw [(read_perm m p f).length_eq, List.length_append, copied_eq_listed m p hne]
  simp [listed, hne]

/-- `read` initialises a freelist that has no ids. -/
theorem initialises_iff :
    Lists (f.read m p) (listed m p) f.pending ↔ f.ids = [] := by
  have hne : (Page.count m p).toNat ≠ 0xFFFF := by omega
  constructor
  · intro h
    have hlen := h.perm.length_eq
    rw [length_read f hcount, listed, if_neg hne, List.length_map, List.length_range] at hlen
    exact List.length_eq_zero_iff.mp (by omega)
  · intro hnil
    have hf : Ascending f.ids := by rw [hnil]; exact List.Pairwise.nil
    rw [read_lists_iff m p f hf, hnil, List.nil_append, copied_eq_listed m p hne]

/-- A second `read` adds the ids of the page a second time. -/
theorem read_read_iff :
    (f.read m p).read m p = f.read m p ↔ (Page.count m p).toNat = 0 := by
  constructor
  · intro h
    have hlen := congrArg (fun g => g.ids.length) h
    simp only [length_read _ hcount] at hlen
    omega
  · intro hzero
    have hids : ∀ g : FreeList, (g.read m p).ids = g.ids := by
      intro g
      simp [read, hzero]
    refine ext (hids _) (read_pending _ m p) ?_
    rw [read_cache, read_cache, hids, read_pending]

/-- **When `read` leaves what the page says, and stays at it.**  The freelist
must have no ids and the page list none. -/
theorem rereads_iff :
    Lists (f.read m p) (listed m p) f.pending ∧ (f.read m p).read m p = f.read m p ↔
      f.ids = [] ∧ (Page.count m p).toNat = 0 := by
  rw [initialises_iff f hcount, read_read_iff f hcount]

omit hcount

theorem rereads_sample :
    Lists (empty.read (listPage 0 []) 0) (listed (listPage 0 []) 0) empty.pending ∧
      (empty.read (listPage 0 []) 0).read (listPage 0 []) 0 = empty.read (listPage 0 []) 0 :=
  (rereads_iff empty (by decide)).mpr ⟨rfl, by decide⟩

/-- Page 7 is free twice. -/
theorem read_doubles :
    ((empty.read plainPage 0).read plainPage 0).ids = [7, 7] ∧ listed plainPage 0 = [7] ∧
      ¬ Lists ((empty.read plainPage 0).read plainPage 0) (listed plainPage 0) empty.pending ∧
      (empty.read plainPage 0).read plainPage 0 ≠ empty.read plainPage 0 := by
  have hids : ((empty.read plainPage 0).read plainPage 0).ids = [7, 7] := by decide
  have hlisted : listed plainPage 0 = [7] := by decide
  refine ⟨hids, hlisted, fun h => ?_, fun h => ?_⟩
  · have hlen := h.perm.length_eq
    rw [hids, hlisted] at hlen
    exact absurd hlen (by decide)
  · have hone : (empty.read plainPage 0).ids = [7] := by decide
    rw [h, hone] at hids
    exact absurd hids (by decide)

end FreeList

end BoltCpp
