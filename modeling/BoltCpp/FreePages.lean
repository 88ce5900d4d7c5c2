/-
BoltCpp/FreePages.lean

Runs of the freelist: order of the free ids, and conservation.

`release` neither loses nor invents a page (`release_conserves`), and the
cache needs no attention because a released page stays in it.  The order is
another matter: `release` merges the ids of the transactions as the map holds
them, so the free ids stay ascending exactly as long as every release happens
to gather an ascending range (`ids_ascending_iff`).
-/
import BoltCpp.FreeList
import BoltCpp.Lib.Runs

namespace BoltCpp

open ByteMem RangeMerge

namespace FreeList

/-! ### Runs -/

inductive Call where
  | read (m : Mem) (p : Nat)
  | release (txid : Txid)
  | reindex

def call (inplace_merge : Merge Pgid) (f : FreeList) : Call → FreeList
  | .read m p => f.read m p
  | .release txid => f.release inplace_merge txid
  | .reindex => f.reindex

def run (inplace_merge : Merge Pgid) (f : FreeList) (calls : List Call) : FreeList :=
  calls.foldl (call inplace_merge) f

/-- A call that finds the given pending map. -/
def callFreeing (inplace_merge : Merge Pgid) (f : FreeList) (step : Pending × Call) : FreeList :=
  call inplace_merge { f with pending := step.1 } step.2

variable {inplace_merge : Merge Pgid}

/-! ### Order -/

/-- If the call is a release, the ids it gathers from the pending map are
ascending. -/
def GathersAscending (step : Pending × Call) : Prop :=
  ∀ txid, step.2 = .release txid → Ascending (step.1.under fun k => k ≤ txid).ids

/-- One call keeps the order, a release under a condition. -/
theorem callFreeing_ascending_iff (hm : Merges inplace_merge) {f : FreeList}
    (hf : Ascending f.ids) (step : Pending × Call) :
    Ascending (callFreeing inplace_merge f step).ids ↔ GathersAscending step := by
  obtain ⟨pending, c⟩ := step
  cases c with
  | read m p =>
      exact ⟨fun _ _ h => (by cases h), fun _ => FreeList.read_ascending _ m p hf⟩
  | release txid =>
      rw [callFreeing, call, release_ids, hm.ascending_iff]
      constructor
      · rintro ⟨-, h⟩ txid' htxid
        cases htxid
        exact h
      · exact fun h => ⟨hf, h txid rfl⟩
  | reindex => exact ⟨fun _ _ h => (by cases h), fun _ => hf⟩

/-- **When the free ids stay ascending.**  Starting from an empty freelist,
with any pending map before each call, the ids are in ascending order after
every step exactly when every release gathers the ids of the transactions it
releases in ascending order. -/
theorem ids_ascending_iff (hm : Merges inplace_merge) (steps : List (Pending × Call)) :
    Runs.Always (callFreeing inplace_merge) (fun f => Ascending f.ids) empty steps ↔
      ∀ step ∈ steps, GathersAscending step := by
  have hstep : ∀ (f : FreeList) (step : Pending × Call), True → Ascending f.ids →
      (Ascending (callFreeing inplace_merge f step).ids ↔ GathersAscending step) :=
    fun f step _ hf => callFreeing_ascending_iff hm hf step
  exact (Runs.always_iff (P := fun f : FreeList => Ascending f.ids) (fun _ _ _ => trivial)
    hstep steps trivial List.Pairwise.nil).trans Runs.meets_const_iff

theorem ids_ascending_sample :
    Runs.Always (callFreeing merge) (fun f => Ascending f.ids) empty
      [(Pending.sample, .release 1), (Pending.sample, .reindex)] := by
  refine (ids_ascending_iff merge_merges _).mpr ?_
  intro step hmem txid htxid
  simp only [List.mem_cons, List.not_mem_nil, or_false] at hmem
  rcases hmem with rfl | rfl
  · obtain rfl := Call.release.inj htxid
    decide
  · cases htxid

/-- Both are released at once, and page 7 comes in front of page 4. -/
theorem release_unsorted :
    (callFreeing merge empty (Pending.sample, .release 2)).ids = [7, 4] ∧
      ¬ Runs.Always (callFreeing merge) (fun f => Ascending f.ids) empty
        [(Pending.sample, .release 2)] := by
  have hids : (callFreeing merge empty (Pending.sample, .release 2)).ids = [7, 4] := by
    rw [callFreeing, call, release_ids]
    exact List.nil_merge _
  refine ⟨hids, fun h => ?_⟩
  have hascending : Ascending (callFreeing merge empty (Pending.sample, .release 2)).ids := h 1
  rw [hids] at hascending
  revert hascending
  decide

/-! ### Conservation -/

theorem release_perm (hm : Permutes inplace_merge) (f : FreeList) (txid : Txid) :
    (f.release inplace_merge txid).ids.Perm
      (f.ids ++ (f.pending.under fun k => k ≤ txid).ids) := by
  rw [release_ids]
  exact hm _ _

/-- A release moves pages from pending to free. -/
theorem release_all_perm (hm : Permutes inplace_merge) (f : FreeList) (txid : Txid) :
    ((f.release inplace_merge txid).ids ++ (f.release inplace_merge txid).pending.ids).Perm
      (f.ids ++ f.pending.ids) := by
  rw [release_pending]
  refine ((release_perm hm f txid).append_right _).trans ?_
  rw [List.append_assoc]
  exact (f.pending.ids_perm _).append_left _

theorem le_max_split (a b k : Txid) :
    (decide (k ≤ max a b) && decide (k ≤ a)) = decide (k ≤ a) ∧
      (decide (k ≤ max a b) && !decide (k ≤ a)) = (!decide (k ≤ a) && decide (k ≤ b)) ∧
      (!decide (k ≤ a) && !decide (k ≤ b)) = !decide (k ≤ max a b) := by
  have hmax : k ≤ max a b ↔ k ≤ a ∨ k ≤ b := le_max_iff
  by_cases ha : k ≤ a <;> by_cases hb : k ≤ b <;> simp [hmax, ha, hb]

theorem release_release_pending (f : FreeList) (a b : Txid) :
    ((f.release inplace_merge a).release inplace_merge b).pending
      = (f.release inplace_merge (max a b)).pending := by
  rw [release_pending, release_pending, release_pending, Pending.under_under]
  simp only [(le_max_split a b _).2.2]

/-- Two releases are one. -/
theorem release_release_perm (hm : Permutes inplace_merge) (f : FreeList) (a b : Txid) :
    ((f.release inplace_merge a).release inplace_merge b).ids.Perm
      (f.release inplace_merge (max a b)).ids := by
  -- what is due by `a`, and by `b` but not by `a`, is what is due by the later of the two
  have hsplit : ((f.pending.under fun k => k ≤ a).ids
      ++ ((f.pending.under fun k => !decide (k ≤ a)).under fun k => k ≤ b).ids).Perm
      (f.pending.under fun k => k ≤ max a b).ids := by
    have := (f.pending.under fun k => k ≤ max a b).ids_perm fun k => k ≤ a
    simp only [Pending.under_under, (le_max_split a b _).1, (le_max_split a b _).2.1] at this ⊢
    exact this
  refine (release_perm hm _ b).trans (.trans ?_ (release_perm hm f (max a b)).symm)
  rw [release_pending]
  refine ((release_perm hm f a).append_right _).trans ?_
  rw [List.append_assoc]
  exact hsplit.append_left _

/-! ### The cache -/

/-- The cache is exact: it holds the free and the pending ids. -/
def CacheExact (f : FreeList) : Prop := f.cache = (f.ids ++ f.pending.ids).toFinset

/-- No call spoils an exact cache. -/
theorem call_cacheExact (hm : Permutes inplace_merge) {f : FreeList} (hf : f.CacheExact)
    (c : Call) : (call inplace_merge f c).CacheExact := by
  cases c with
  | read m p => exact f.read_cache m p
  | release txid =>
      -- the cache is not touched, and neither is the whole of the ids
      have hsame := List.toFinset_eq_of_perm _ _ (release_all_perm hm f txid)
      rw [call, CacheExact, release_cache, hsame]
      exact hf
  | reindex => exact f.reindex_cache

theorem run_cacheExact (hm : Permutes inplace_merge) (calls : List Call) {f : FreeList}
    (hf : f.CacheExact) : (run inplace_merge f calls).CacheExact :=
  Runs.invariant (I := CacheExact) (fun _ c hf => call_cacheExact hm hf c) calls hf

/-- **The freelist conserves pages.**  A release keeps the pending entries
above its id and adds the ids of all others to the free ones; so ids that
were distinct stay distinct, and two releases are one at the later id.  From
a first `read` or `reindex` on, the cache is exact. -/
theorem release_conserves (hm : Permutes inplace_merge) :
    (∀ (f : FreeList) (txid : Txid),
      (f.release inplace_merge txid).pending.entries
          = f.pending.entries.filter (fun e => txid < e.1) ∧
        (f.release inplace_merge txid).ids.Perm
          (f.ids ++ (f.pending.entries.filter fun e => e.1 ≤ txid).flatMap Prod.snd)) ∧
    (∀ (f : FreeList) (txid : Txid), (f.ids ++ f.pending.ids).Nodup →
      ((f.release inplace_merge txid).ids
        ++ (f.release inplace_merge txid).pending.ids).Nodup) ∧
    (∀ (f : FreeList) (a b : Txid),
      ((f.release inplace_merge a).release inplace_merge b).pending
          = (f.release inplace_merge (max a b)).pending ∧
        ((f.release inplace_merge a).release inplace_merge b).ids.Perm
          (f.release inplace_merge (max a b)).ids) ∧
    (∀ (f : FreeList) (c : Call) (calls : List Call), (∀ txid, c ≠ .release txid) →
      (run inplace_merge f (c :: calls)).cache
        = ((run inplace_merge f (c :: calls)).ids
            ++ (run inplace_merge f (c :: calls)).pending.ids).toFinset) := by
  refine ⟨fun f txid => ⟨?_, release_perm hm f txid⟩, fun f txid h => ?_, fun f a b => ?_,
    fun f c calls hc => ?_⟩
  · rw [release_pending, Pending.entries_under]
    simp only [← decide_not, not_le]
  · exact (release_all_perm hm f txid).nodup_iff.mpr h
  · exact ⟨release_release_pending f a b, release_release_perm hm f a b⟩
  · refine run_cacheExact hm calls ?_
    cases c with
    | read m p => exact f.read_cache m p
    | release txid => exact absurd rfl (hc txid)
    | reindex => exact f.reindex_cache

theorem release_conserves_sample :
    (release merge ⟨[3], Pending.sample, ∅⟩ 1).pending.entries = [(2, [4])] ∧
      (release merge ⟨[3], Pending.sample, ∅⟩ 1).ids.Perm [3, 7] :=
  (release_conserves merge_merges.permutes).1 ⟨[3], Pending.sample, ∅⟩ 1

end FreeList

end BoltCpp
