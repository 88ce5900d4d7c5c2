/-
BoltCpp/Lib/KeyedList.lean

Lists kept in strictly ascending order of a key, as representations of
finite maps.

The abstract object is a `KeyedMap`: a partial function from keys to entries
that files each entry under its own key.  `Represents xs f` says the sorted
list `xs` lists exactly the entries of `f`; such a list is unique
(`Represents.unique`), and inserting or erasing at the lower bound of a key
represents the updated map (`Represents.insert`, `Represents.erase`).
-/
import BoltCpp.Lib.Bisect
import Mathlib.Data.List.Sort
import Mathlib.Data.Set.Card
import Mathlib.Logic.Function.Basic

namespace KeyedList

variable {α κ : Type*} [LinearOrder κ] {key : α → κ}

/-- Strictly ascending keys. -/
def Sorted (key : α → κ) (xs : List α) : Prop :=
  xs.Pairwise fun x y => key x < key y

/-- The position of the first entry whose key is not below `k`. -/
def lowerBound (key : α → κ) (xs : List α) (k : κ) : Nat :=
  Bisect.lowerBound (fun x => decide (key x < k)) xs

theorem lowerBound_boundary (key : α → κ) (xs : List α) (k : κ) :
    Bisect.Boundary (fun x => decide (key x < k)) xs (lowerBound key xs k) :=
  Bisect.lowerBound_boundary _ xs

theorem Sorted.partitioned {xs : List α} (h : Sorted key xs) (k : κ) :
    Bisect.Partitioned (fun x => decide (key x < k)) xs := by
  refine h.imp ?_
  intro x y hxy hy
  simp only [decide_eq_true_eq] at hy ⊢
  exact hxy.trans hy

/-! ### Cutting a sorted list at a key -/

theorem Sorted.lt_lowerBound_iff {xs : List α} (h : Sorted key xs) {i : Nat} {x : α}
    (hx : xs[i]? = some x) (k : κ) : i < lowerBound key xs k ↔ key x < k := by
  obtain ⟨hi, rfl⟩ := List.getElem?_eq_some_iff.mp hx
  rw [← (lowerBound_boundary key xs k).iff_lt (h.partitioned k) i hi, decide_eq_true_eq]

theorem Sorted.take_lowerBound {xs : List α} (h : Sorted key xs) (k : κ) :
    xs.take (lowerBound key xs k) = xs.filter fun x => key x < k :=
  Bisect.take_lowerBound (h.partitioned k)

theorem Sorted.drop_lowerBound {xs : List α} (h : Sorted key xs) (k : κ) :
    xs.drop (lowerBound key xs k) = xs.filter fun x => k ≤ key x := by
  rw [lowerBound, Bisect.drop_lowerBound (h.partitioned k)]
  simp only [← decide_not, not_lt]

/-- An entry with key `k`, if there is one, is at the lower bound of `k`. -/
theorem Sorted.getElem?_lowerBound {xs : List α} (h : Sorted key xs) {x : α}
    (hx : x ∈ xs) : xs[lowerBound key xs (key x)]? = some x := by
  have hb := lowerBound_boundary key xs (key x)
  obtain ⟨i, hi, rfl⟩ := List.mem_iff_getElem.mp hx
  have hge : lowerBound key xs (key xs[i]) ≤ i := by
    by_contra hlt
    have := (hb.iff_lt (h.partitioned _) i hi).mpr (Nat.lt_of_not_le hlt)
    simp at this
  rcases Nat.lt_or_eq_of_le hge with hlt | heq
  · -- an earlier entry that is not below `key x` contradicts the order
    have hr : lowerBound key xs (key xs[i]) < xs.length := by omega
    have hasc := List.pairwise_iff_getElem.mp h _ i hr hi hlt
    have := (hb.iff_lt (h.partitioned _) _ hr).mp (by simpa using hasc)
    exact absurd this (Nat.lt_irrefl _)
  · rw [heq, List.getElem?_eq_getElem hi]

/-- No key is listed twice. -/
theorem Sorted.nodup_map {xs : List α} (h : Sorted key xs) : (xs.map key).Nodup :=
  List.pairwise_map.mpr (h.imp fun hab => ne_of_lt hab)

theorem Sorted.nodup {xs : List α} (h : Sorted key xs) : xs.Nodup :=
  List.Nodup.of_map key h.nodup_map

/-- The key of an entry leads back to it. -/
theorem Sorted.lowerBound_of_getElem? {xs : List α} (h : Sorted key xs) {i : Nat} {x : α}
    (hx : xs[i]? = some x) : lowerBound key xs (key x) = i := by
  have hget := h.getElem?_lowerBound (List.mem_of_getElem? hx)
  have hi := (List.getElem?_eq_some_iff.mp hx).1
  exact ((List.getElem?_inj hi h.nodup).mp (hx.trans hget.symm)).symm

/-- Past an entry with key `k` come the larger keys. -/
theorem Sorted.drop_succ_lowerBound {xs : List α} (h : Sorted key xs) {x : α}
    (hx : x ∈ xs) :
    xs.drop (lowerBound key xs (key x) + 1) = xs.filter fun y => key x < key y := by
  have hget := h.getElem?_lowerBound hx
  obtain ⟨hlt, hget⟩ := List.getElem?_eq_some_iff.mp hget
  have hsplit : xs = xs.take (lowerBound key xs (key x))
      ++ x :: xs.drop (lowerBound key xs (key x) + 1) := by
    conv_lhs => rw [← List.take_append_drop (lowerBound key xs (key x)) xs]
    rw [List.drop_eq_getElem_cons hlt, hget]
  -- the filter drops what is in front of `x` and `x`, and nothing behind it
  have hleft : (xs.take (lowerBound key xs (key x))).filter (fun y => key x < key y) = [] := by
    rw [h.take_lowerBound, List.filter_filter, List.filter_eq_nil_iff]
    intro y _ hy
    simp only [Bool.and_eq_true, decide_eq_true_eq] at hy
    exact lt_asymm hy.1 hy.2
  have hall : ∀ y ∈ xs.drop (lowerBound key xs (key x) + 1), key x < key y := by
    rw [Sorted, hsplit, List.pairwise_append] at h
    exact (List.pairwise_cons.mp h.2.1).1
  conv_rhs => rw [hsplit]
  rw [List.filter_append, hleft, List.nil_append, List.filter_cons]
  simp only [lt_self_iff_false, decide_false, Bool.false_eq_true, if_false]
  rw [eq_comm, List.filter_eq_self]
  intro y hy
  simpa using hall y hy

/-! ### Insertion and erasure -/

/-- File `x` under its key, replacing an entry with the same key. -/
def insert (key : α → κ) (x : α) (xs : List α) : List α :=
  (xs.filter fun y => key y < key x) ++ x :: xs.filter fun y => key x < key y

/-- Remove the entry with key `k`. -/
def erase (key : α → κ) (k : κ) (xs : List α) : List α :=
  xs.filter fun y => key y ≠ k

theorem mem_insert {x y : α} {xs : List α} :
    y ∈ insert key x xs ↔ y = x ∨ (y ∈ xs ∧ key y ≠ key x) := by
  simp only [insert, List.mem_append, List.mem_cons, List.mem_filter, decide_eq_true_eq,
    ne_iff_lt_or_gt]
  tauto

theorem Sorted.insert {xs : List α} (h : Sorted key xs) (x : α) :
    Sorted key (KeyedList.insert key x xs) := by
  rw [Sorted, KeyedList.insert, List.pairwise_append, List.pairwise_cons]
  refine ⟨h.filter _, ⟨?_, h.filter _⟩, ?_⟩
  · intro y hy
    simpa using (List.mem_filter.mp hy).2
  · intro a ha b hb
    have hax : key a < key x := by simpa using (List.mem_filter.mp ha).2
    rcases List.mem_cons.mp hb with rfl | hb
    · exact hax
    · exact hax.trans (by simpa using (List.mem_filter.mp hb).2)

theorem mem_erase {k : κ} {y : α} {xs : List α} :
    y ∈ erase key k xs ↔ y ∈ xs ∧ key y ≠ k := by
  simp [erase]

theorem Sorted.erase {xs : List α} (h : Sorted key xs) (k : κ) :
    Sorted key (KeyedList.erase key k xs) :=
  h.filter _

/-- File `x` where `k` belongs, replacing an entry with the key `k`.  Its own
key need not be `k`. -/
def fileAt (key : α → κ) (k : κ) (x : α) (xs : List α) : List α :=
  (xs.filter fun y => key y < k) ++ x :: xs.filter fun y => k < key y

/-- Under its own key that is insertion. -/
theorem fileAt_key (x : α) (xs : List α) : fileAt key (key x) x xs = insert key x xs := rfl

/-- Putting `x` at the lower bound of an absent key. -/
theorem Sorted.insertIdx_lowerBound {xs : List α} (h : Sorted key xs) {k : κ}
    (hk : ∀ y ∈ xs, key y ≠ k) (x : α) :
    xs.take (lowerBound key xs k) ++ x :: xs.drop (lowerBound key xs k)
      = fileAt key k x xs := by
  rw [h.take_lowerBound, h.drop_lowerBound, fileAt]
  congr 2
  refine List.filter_congr fun y hy => ?_
  simp only [decide_eq_decide]
  exact ⟨fun hle => lt_of_le_of_ne hle (hk y hy).symm, le_of_lt⟩

/-- Replacing the entry with the key. -/
theorem Sorted.set_lowerBound {xs : List α} (h : Sorted key xs) {y : α} (hy : y ∈ xs) (x : α) :
    xs.take (lowerBound key xs (key y)) ++ x :: xs.drop (lowerBound key xs (key y) + 1)
      = fileAt key (key y) x xs := by
  rw [h.take_lowerBound, h.drop_succ_lowerBound hy, fileAt]

/-- The entry with the key is replaced in place. -/
theorem Sorted.fileAt_of_mem {xs : List α} (h : Sorted key xs) {y : α} (hy : y ∈ xs) (x : α) :
    ∃ l r, xs = l ++ y :: r ∧ fileAt key (key y) x xs = l ++ x :: r := by
  obtain ⟨hlt, hget⟩ := List.getElem?_eq_some_iff.mp (h.getElem?_lowerBound hy)
  refine ⟨xs.take (lowerBound key xs (key y)), xs.drop (lowerBound key xs (key y) + 1), ?_,
    (h.set_lowerBound hy x).symm⟩
  conv_lhs => rw [← List.take_append_drop (lowerBound key xs (key y)) xs]
  rw [List.drop_eq_getElem_cons hlt, hget]

/-- Where there is none, `x` comes between the smaller and the larger keys. -/
theorem Sorted.fileAt_of_not_mem {xs : List α} (h : Sorted key xs) {k : κ}
    (hk : ∀ y ∈ xs, key y ≠ k) (x : α) :
    ∃ l r, xs = l ++ r ∧ (∀ y ∈ l, key y < k) ∧ (∀ y ∈ r, k < key y) ∧
      fileAt key k x xs = l ++ x :: r := by
  refine ⟨xs.take (lowerBound key xs k), xs.drop (lowerBound key xs k),
    (List.take_append_drop _ xs).symm, ?_, ?_, (h.insertIdx_lowerBound hk x).symm⟩
  · intro y hy
    rw [h.take_lowerBound] at hy
    simpa using (List.mem_filter.mp hy).2
  · intro y hy
    rw [h.drop_lowerBound] at hy
    obtain ⟨hmem, hle⟩ := List.mem_filter.mp hy
    exact lt_of_le_of_ne (by simpa using hle) (hk y hmem).symm

/-- **When an entry may take the place of a key.**  The order is kept if its
own key lies between the same neighbours. -/
theorem Sorted.fileAt_iff {xs : List α} (h : Sorted key xs) (k : κ) (x : α) :
    Sorted key (fileAt key k x xs) ↔
      (∀ y ∈ xs, key y < k → key y < key x) ∧ (∀ y ∈ xs, k < key y → key x < key y) := by
  rw [Sorted, fileAt, List.pairwise_append, List.pairwise_cons]
  simp only [List.mem_cons, List.mem_filter, decide_eq_true_eq, and_imp]
  constructor
  · rintro ⟨-, ⟨hright, -⟩, hleft⟩
    exact ⟨fun y hy hlt => hleft y hy hlt x (.inl rfl), hright⟩
  · rintro ⟨hleft, hright⟩
    refine ⟨h.filter _, ⟨hright, h.filter _⟩, ?_⟩
    rintro a ha hak b (rfl | ⟨-, hkb⟩)
    · exact hleft a ha hak
    · exact hak.trans hkb

/-- Erasing at the lower bound of a present key. -/
theorem Sorted.eraseIdx_lowerBound {xs : List α} (h : Sorted key xs) {x : α} (hx : x ∈ xs) :
    xs.take (lowerBound key xs (key x)) ++ xs.drop (lowerBound key xs (key x) + 1)
      = KeyedList.erase key (key x) xs := by
  have hsplit : KeyedList.erase key (key x) (xs.take (lowerBound key xs (key x))
      ++ x :: xs.drop (lowerBound key xs (key x) + 1))
      = xs.take (lowerBound key xs (key x))
        ++ xs.drop (lowerBound key xs (key x) + 1) := by
    rw [KeyedList.erase, List.filter_append, List.filter_cons]
    simp only [ne_eq, not_true_eq_false, decide_false, Bool.false_eq_true, if_false]
    congr 1
    · rw [List.filter_eq_self]
      intro y hy
      rw [h.take_lowerBound] at hy
      have : key y < key x := by simpa using (List.mem_filter.mp hy).2
      simpa using ne_of_lt this
    · rw [List.filter_eq_self]
      intro y hy
      rw [h.drop_succ_lowerBound hx] at hy
      have : key x < key y := by simpa using (List.mem_filter.mp hy).2
      simpa using ne_of_gt this
  obtain ⟨hlt, hget⟩ := List.getElem?_eq_some_iff.mp (h.getElem?_lowerBound hx)
  rw [← hsplit]
  congr 1
  conv_rhs => rw [← List.take_append_drop (lowerBound key xs (key x)) xs]
  rw [List.drop_eq_getElem_cons hlt, hget]

/-! ### Maps -/

/-- A partial function that files every entry under its own key. -/
structure KeyedMap (key : α → κ) where
  toFun : κ → Option α
  keyed : ∀ k x, toFun k = some x → key x = k

namespace KeyedMap

/-- The empty map. -/
def empty (key : α → κ) : KeyedMap key where
  toFun _ := none
  keyed := by intro k x h; cases h

/-- Bind `key x` to `x`. -/
def insert (f : KeyedMap key) (x : α) : KeyedMap key where
  toFun := Function.update f.toFun (key x) (some x)
  keyed := by
    intro k y h
    by_cases hk : k = key x
    · subst hk
      rw [Function.update_self] at h
      rw [Option.some.inj h]
    · rw [Function.update_of_ne hk] at h
      exact f.keyed k y h

/-- Unbind `k`. -/
def erase (f : KeyedMap key) (k : κ) : KeyedMap key where
  toFun := Function.update f.toFun k none
  keyed := by
    intro k' y h
    by_cases hk : k' = k
    · subst hk
      rw [Function.update_self] at h
      cases h
    · rw [Function.update_of_ne hk] at h
      exact f.keyed k' y h

theorem insert_apply_self (f : KeyedMap key) (x : α) :
    (f.insert x).toFun (key x) = some x :=
  Function.update_self _ _ _

theorem insert_apply_of_ne (f : KeyedMap key) {x : α} {k : κ} (h : k ≠ key x) :
    (f.insert x).toFun k = f.toFun k :=
  Function.update_of_ne h _ _

theorem erase_apply_self (f : KeyedMap key) (k : κ) : (f.erase k).toFun k = none :=
  Function.update_self _ _ _

theorem erase_apply_of_ne (f : KeyedMap key) {k k' : κ} (h : k' ≠ k) :
    (f.erase k).toFun k' = f.toFun k' :=
  Function.update_of_ne h _ _

/-- Unbinding one key after the other. -/
theorem foldl_erase_apply [DecidableEq κ] (ks : List κ) (f : KeyedMap key) (k : κ) :
    (ks.foldl erase f).toFun k = if k ∈ ks then none else f.toFun k := by
  induction ks generalizing f with
  | nil => rfl
  | cons k' ks ih =>
      rw [List.foldl_cons, ih]
      by_cases hk : k ∈ ks
      · rw [if_pos hk, if_pos (List.mem_cons_of_mem _ hk)]
      · rw [if_neg hk]
        by_cases heq : k = k'
        · subst heq
          rw [f.erase_apply_self, if_pos List.mem_cons_self]
        · rw [f.erase_apply_of_ne heq, if_neg fun h => hk ((List.mem_cons.mp h).resolve_left heq)]

/-- The keys that are bound. -/
def live (f : KeyedMap key) : Set κ := {k | f.toFun k ≠ none}

end KeyedMap

/-- `xs` lists the entries of `f` in ascending order. -/
structure Represents (xs : List α) (f : KeyedMap key) : Prop where
  sorted : Sorted key xs
  mem_iff : ∀ x, x ∈ xs ↔ f.toFun (key x) = some x

theorem Represents.empty : Represents ([] : List α) (KeyedMap.empty key) :=
  ⟨List.Pairwise.nil, by simp [KeyedMap.empty]⟩

theorem Represents.insert {xs : List α} {f : KeyedMap key} (h : Represents xs f) (x : α) :
    Represents (KeyedList.insert key x xs) (f.insert x) := by
  refine ⟨h.sorted.insert x, fun y => ?_⟩
  rw [mem_insert, h.mem_iff]
  by_cases hk : key y = key x
  · rw [hk, f.insert_apply_self, Option.some.injEq]
    simp [eq_comm]
  · rw [f.insert_apply_of_ne hk]
    constructor
    · rintro (rfl | hy)
      · exact absurd rfl hk
      · exact hy.1
    · exact fun hy => Or.inr ⟨hy, hk⟩

theorem Represents.erase {xs : List α} {f : KeyedMap key} (h : Represents xs f) (k : κ) :
    Represents (KeyedList.erase key k xs) (f.erase k) := by
  refine ⟨h.sorted.erase k, fun y => ?_⟩
  rw [mem_erase, h.mem_iff]
  by_cases hk : key y = k
  · subst hk
    simp [f.erase_apply_self]
  · rw [f.erase_apply_of_ne hk]
    simp [hk]

/-- The map that a sorted list lists. -/
theorem Sorted.exists_represents {xs : List α} (h : Sorted key xs) :
    ∃ f : KeyedMap key, Represents xs f := by
  classical
  refine ⟨⟨fun k => xs.find? fun x => key x = k, fun k x hx => ?_⟩, h, fun x => ?_⟩
  · simpa using List.find?_some hx
  · constructor
    · intro hx
      rcases hfind : xs.find? (fun y => key y = key x) with - | y
      · exact absurd (decide_eq_true rfl) (List.find?_eq_none.mp hfind x hx)
      · -- the key of `x` is found at `x` only
        have hy := List.mem_of_find?_eq_some hfind
        have hkey : key y = key x := by simpa using List.find?_some hfind
        have hsame := (h.getElem?_lowerBound hy).symm.trans (hkey ▸ h.getElem?_lowerBound hx)
        exact hfind.trans hsame
    · exact fun hx => List.mem_of_find?_eq_some hx

/-- **A map has one sorted list of entries.** -/
theorem Represents.unique {xs ys : List α} {f : KeyedMap key} (hx : Represents xs f)
    (hy : Represents ys f) : xs = ys := by
  -- the same elements, each once, in the same order
  have hperm : xs.Perm ys :=
    (List.perm_ext_iff_of_nodup hx.sorted.nodup hy.sorted.nodup).mpr
      fun x => (hx.mem_iff x).trans (hy.mem_iff x).symm
  exact List.Perm.eq_of_pairwise (fun a b _ _ hab hba => absurd hab (lt_asymm hba))
    hx.sorted hy.sorted hperm

/-- Looking a key up at its lower bound. -/
theorem Represents.getElem?_lowerBound {xs : List α} {f : KeyedMap key}
    (h : Represents xs f) {k : κ} {x : α} (hx : f.toFun k = some x) :
    xs[lowerBound key xs k]? = some x := by
  obtain rfl := f.keyed k x hx
  exact h.sorted.getElem?_lowerBound ((h.mem_iff x).mpr hx)

/-- The list has one entry for each live key. -/
theorem Represents.length_eq {xs : List α} {f : KeyedMap key} (h : Represents xs f) :
    xs.length = f.live.ncard := by
  -- the keys of the list are the live ones, and no key is listed twice
  have hlive : f.live = ((xs.map key).toFinset : Set κ) := by
    ext k
    simp only [KeyedMap.live, Set.mem_ofPred_eq, List.coe_toFinset, List.mem_map]
    constructor
    · intro hk
      obtain ⟨x, hx⟩ := Option.ne_none_iff_exists'.mp hk
      have hkey := f.keyed k x hx
      exact ⟨x, (h.mem_iff x).mpr (hkey ▸ hx), hkey⟩
    · rintro ⟨x, hx, rfl⟩
      rw [(h.mem_iff x).mp hx]
      exact Option.some_ne_none x
  rw [hlive, Set.ncard_coe_finset, List.toFinset_card_of_nodup h.sorted.nodup_map, List.length_map]

end KeyedList
