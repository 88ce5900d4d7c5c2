/-
BoltCpp/KeySearch.lean

Searching a list of keys.

Nodes and pages are searched by the same two rules, applied to their keys in
order: a leaf takes the lower bound (`keyIndex`), a branch steps back from it
unless the key was found (`childOf`).  On ascending separators the second rule
leads to the child a search tree routes to (`routes_childOf`).

The last section asks what two lists have in common on which a rule gives the
same answers.  The first list is in order, the second need not be.  For
leaves they are equal; for branches the second may not exceed the first from
index 1 on, and may not be below it where there is a gap.
-/
import BoltCpp.Cursor
import BoltCpp.Lib.SearchTree

namespace BoltCpp

open KeyedList

/-! ### The two rules -/

/-- The index a leaf search ends at. -/
def keyIndex (ks : List Slice) (s : Slice) : Nat := KeyedList.lowerBound id ks s

/-- The child a branch search descends into. -/
def childOf (ks : List Slice) (s : Slice) : Nat :=
  Cursor.childIndex (keyIndex ks s) ((ks[keyIndex ks s]?).any fun k => decide (k = s))

theorem lowerBound_eq_keyIndex {α : Type*} (f : α → Slice) (xs : List α) (s : Slice) :
    Bisect.lowerBound (fun x => Slice.lt (f x) s) xs = keyIndex (xs.map f) s := by
  refine Bisect.lowerBound_congr ?_
  rw [List.map_map]
  refine List.map_congr_left fun x _ => ?_
  rw [Bool.eq_iff_iff, Slice.lt_iff]
  simp only [Function.comp_apply, id_eq, decide_eq_true_eq]

theorem childIndex_eq_childOf {α : Type*} (f : α → Slice) (xs : List α) (s : Slice) :
    Cursor.childIndex (keyIndex (xs.map f) s)
        ((xs[keyIndex (xs.map f) s]?).any fun x => Slice.beq (f x) s)
      = childOf (xs.map f) s := by
  rw [childOf, List.getElem?_map, Option.any_map]
  simp only [Slice.beq_eq_decide]

/-- A branch search ends inside the list. -/
theorem childOf_lt {ks : List Slice} (hne : ks ≠ []) (s : Slice) :
    childOf ks s < ks.length := by
  have hle : keyIndex ks s ≤ ks.length := Bisect.lowerBound_le _ _
  have hpos := List.length_pos_of_ne_nil hne
  rw [childOf, Cursor.childIndex]
  rcases Nat.lt_or_eq_of_le hle with hlt | hend
  · split
    · omega
    · exact hlt
  · rw [List.getElem?_eq_none (by omega)]
    simp [hend, hpos]

/-- A node is searched by its keys. -/
theorem searchNode_eq_childOf (nd : Node) (s : Slice) :
    Cursor.searchNode nd s
      = (do
          let x ← vecAt nd.inodes (childOf (nd.inodes.map INode.key) s : Nat)
          pure (childOf (nd.inodes.map INode.key) s, x.id)) := by
  simp only [Cursor.searchNode, Node.lowerBound, lowerBound_eq_keyIndex INode.key,
    childIndex_eq_childOf INode.key]

/-- The three ways to arrive at child `i`. -/
theorem childIndex_eq_iff {first i : Nat} {exact : Bool} :
    Cursor.childIndex first exact = i ↔
      (exact = true ∧ first = i) ∨ (exact = false ∧ first = i + 1) ∨
        (exact = false ∧ first = 0 ∧ i = 0) := by
  cases exact
  · by_cases hpos : first > 0
    · simp [Cursor.childIndex, hpos]
      omega
    · simp [Cursor.childIndex, hpos]
      omega
  · simp [Cursor.childIndex]

/-! ### Ascending separators -/

/-- The step back after `lower_bound` leads to a child that the separators
allow. -/
theorem routes_childIndex {n : Nat} {sep : Fin n → Slice} (hsep : StrictMono sep)
    {s : Slice} {first : Nat} {exact : Bool} (hn : 0 < n)
    (hfirst : ∀ i : Fin n, (i : Nat) < first ↔ sep i < s)
    (hexact : exact = true ↔ ∃ i : Fin n, (i : Nat) = first ∧ sep i = s) (hle : first ≤ n) :
    ∃ c : Fin n, Cursor.childIndex first exact = (c : Nat) ∧ MultiTree.Routes sep s c := by
  by_cases hex : exact = true
  · -- the key is a separator: its own child, and later separators are larger
    obtain ⟨i, hi, hkey⟩ := hexact.mp hex
    refine ⟨i, by simp [Cursor.childIndex, hex, hi], fun _ => le_of_eq hkey, fun j hj => ?_⟩
    rw [← hkey]
    exact hsep hj
  · have hstep : Cursor.childIndex first exact = first - 1 := by
      rw [Cursor.childIndex, Bool.eq_false_iff.mpr hex]
      by_cases h0 : first > 0
      · simp [h0]
      · simp [h0]
        omega
    have hc : first - 1 < n := by omega
    -- not a separator: the child of the last separator below the key
    refine ⟨⟨first - 1, hc⟩, hstep, fun hpos => ?_, fun j hj => ?_⟩
    · have hlt : first - 1 < first := by
        have : 0 < first - 1 := hpos
        omega
      exact le_of_lt ((hfirst ⟨first - 1, hc⟩).mp hlt)
    · -- the separator at `first` is above the key, later ones are larger
      have hj' : first - 1 < (j : Nat) := hj
      have hge : ¬ sep j < s := fun h => absurd ((hfirst j).mpr h) (by omega)
      refine lt_of_le_of_ne (not_lt.mp hge) fun heq => ?_
      rcases Nat.lt_or_ge first j with hlt | hge'
      · have hbelow : sep ⟨first, by omega⟩ < s := by
          rw [heq]
          exact hsep (Fin.lt_def.mpr hlt)
        exact absurd ((hfirst ⟨first, by omega⟩).mpr hbelow) (Nat.lt_irrefl _)
      · rcases Nat.eq_zero_or_pos first with h0 | hpos
        · have hbelow : sep ⟨0, hn⟩ < s := by
            rw [heq]
            exact hsep (Fin.lt_def.mpr (by simp only; omega))
          have := (hfirst ⟨0, hn⟩).mpr hbelow
          simp only at this
          omega
        · exact hex (hexact.mpr ⟨j, by omega, heq.symm⟩)

/-- **On ascending separators** a branch search goes where a search tree
routes to. -/
theorem routes_childOf {n : Nat} {sep : Fin n → Slice} (hsep : StrictMono sep) (hn : 0 < n)
    (s : Slice) : ∃ c : Fin n, childOf (List.ofFn sep) s = (c : Nat) ∧
      MultiTree.Routes sep s c := by
  have hsorted : Sorted id (List.ofFn sep) := by
    rw [Sorted, List.pairwise_ofFn]
    exact fun i j hij => hsep hij
  have hget : ∀ i : Fin n, (List.ofFn sep)[(i : Nat)]? = some (sep i) := by
    intro i
    simp
  have hle : keyIndex (List.ofFn sep) s ≤ (List.ofFn sep).length := Bisect.lowerBound_le _ _
  rw [List.length_ofFn] at hle
  refine routes_childIndex hsep hn (fun i => hsorted.lt_lowerBound_iff (hget i) s) ?_ hle
  rw [Option.any_eq_true]
  constructor
  · rintro ⟨k, hk, heq⟩
    have hlt := (List.getElem?_eq_some_iff.mp hk).1
    rw [List.length_ofFn] at hlt
    rw [hget ⟨_, hlt⟩] at hk
    exact ⟨⟨_, hlt⟩, rfl, (Option.some.inj hk).trans (of_decide_eq_true heq)⟩
  · rintro ⟨i, hi, heq⟩
    exact ⟨sep i, by rw [← hi, hget], by simpa using heq⟩

/-- The child is determined by the separators from index 1 on. -/
theorem routes_unique {n : Nat} {sep sep' : Fin n → Slice} {s : Slice} {c c' : Fin n}
    (hsame : ∀ i : Fin n, 0 < (i : Nat) → sep i = sep' i) (h : MultiTree.Routes sep s c)
    (h' : MultiTree.Routes sep' s c') : c = c' := by
  rcases lt_trichotomy c c' with hlt | heq | hlt
  · have hpos : 0 < (c' : Nat) := Nat.lt_of_le_of_lt (Nat.zero_le _) (Fin.lt_def.mp hlt)
    have hhigh := h.high c' hlt
    rw [hsame c' hpos] at hhigh
    exact absurd (h'.low hpos) (not_le.mpr hhigh)
  · exact heq
  · have hpos : 0 < (c : Nat) := Nat.lt_of_le_of_lt (Nat.zero_le _) (Fin.lt_def.mp hlt)
    have hhigh := h'.high c hlt
    rw [← hsame c hpos] at hhigh
    exact absurd (h.low hpos) (not_le.mpr hhigh)

theorem exists_ofFn {ks : List Slice} {n : Nat} (hlen : ks.length = n) :
    ∃ sep : Fin n → Slice, List.ofFn sep = ks := by
  subst hlen
  exact ⟨ks.get, List.ofFn_get ks⟩

theorem strictMono_of_ofFn {n : Nat} {sep : Fin n → Slice}
    (hsorted : Sorted id (List.ofFn sep)) : StrictMono sep := by
  rw [Sorted, List.pairwise_ofFn] at hsorted
  exact fun i j hij => hsorted hij

/-- Lists in order that differ in the first key at most lead to the same
child. -/
theorem childOf_congr {ks ks' : List Slice} (hsorted : Sorted id ks) (hsorted' : Sorted id ks')
    (hlen : ks'.length = ks.length) (hsame : ∀ i, 0 < i → i < ks.length → ks'[i]? = ks[i]?)
    (s : Slice) : childOf ks' s = childOf ks s := by
  obtain ⟨n, hn⟩ : ∃ n, ks.length = n := ⟨_, rfl⟩
  obtain ⟨sep', rfl⟩ := exists_ofFn (hlen.trans hn)
  obtain ⟨sep, rfl⟩ := exists_ofFn hn
  rcases Nat.eq_zero_or_pos n with rfl | hpos
  · rfl
  · -- both lists route to a child, and routing does not look at the first key
    obtain ⟨c, hc, hroutes⟩ := routes_childOf (strictMono_of_ofFn hsorted) hpos s
    obtain ⟨c', hc', hroutes'⟩ := routes_childOf (strictMono_of_ofFn hsorted') hpos s
    have hsep : ∀ i : Fin n, 0 < (i : Nat) → sep' i = sep i := by
      intro i hi
      simpa using hsame i hi (by simp)
    rw [hc, hc', routes_unique hsep hroutes' hroutes]

/-! ### Keys in general -/

theorem lt_append_zero (k : Slice) : k < k ++ [0] := by
  induction k with
  | nil => exact List.nil_lt_cons _ _
  | cons a k ih => exact List.cons_lt_cons_self.mpr ih

theorem cons_le_cons_of_le {x y : Slice} (a : UInt8) (h : x ≤ y) : a :: x ≤ a :: y := by
  refine not_lt.mp fun hlt => ?_
  rcases List.cons_lt_cons_iff.mp hlt with ha | ⟨-, hyx⟩
  · exact absurd ha (lt_irrefl _)
  · exact absurd hyx (not_lt.mpr h)

/-- Nothing lies between a key and the key with a zero byte appended. -/
theorem append_zero_le {k y : Slice} (h : k < y) : k ++ [0] ≤ y := by
  induction k generalizing y with
  | nil =>
      rcases y with - | ⟨b, y⟩
      · exact absurd h (lt_irrefl _)
      · refine not_lt.mp fun hlt => ?_
        rcases List.cons_lt_cons_iff.mp hlt with hb | ⟨-, hnil⟩
        · exact absurd hb (UInt8.not_lt.mpr (UInt8.zero_le))
        · exact absurd hnil (List.not_lt_nil _)
  | cons a k ih =>
      rcases y with - | ⟨b, y⟩
      · exact absurd h (List.not_lt_nil _)
      · rcases List.cons_lt_cons_iff.mp h with hab | ⟨rfl, hky⟩
        · exact le_of_lt (List.cons_lt_cons_iff.mpr (Or.inl hab))
        · exact cons_le_cons_of_le a (ih hky)

/-- Keys that are ordered byte by byte are ordered. -/
theorem le_of_forall₂ {x y : Slice} (h : List.Forall₂ (· ≤ ·) x y) : x ≤ y := by
  induction h with
  | nil => exact le_refl _
  | @cons a b x y hab _ ih =>
      rcases lt_or_eq_of_le hab with hlt | rfl
      · exact le_of_lt (List.cons_lt_cons_iff.mpr (Or.inl hlt))
      · exact cons_le_cons_of_le a ih

/-! ### Two lists that answer alike -/

section

variable {ks ks' : List Slice}

/-- On keys in order, the answer is where the smaller keys end. -/
theorem keyIndex_eq (hsorted : Sorted id ks) {s : Slice} {r : Nat} (hr : r ≤ ks.length)
    (hbefore : ∀ i, i + 1 = r → ∀ k, ks[i]? = some k → k < s)
    (hhere : ∀ k, ks[r]? = some k → s ≤ k) : keyIndex ks s = r := by
  refine Bisect.lowerBound_eq (hsorted.partitioned s) ⟨hr, fun i hi k hk => ?_, fun k hk => ?_⟩
  · simpa using hbefore i hi k hk
  · simpa using hhere k hk

/-- On any keys, the one at the answer is not below the key sought. -/
theorem le_of_keyIndex {s k : Slice} (hk : ks'[keyIndex ks' s]? = some k) : s ≤ k := by
  simpa using (lowerBound_boundary id ks' s).here k hk

/-- On any keys, the one before the answer is below the key sought. -/
theorem lt_of_keyIndex {s k : Slice} {i : Nat} (hi : i + 1 = keyIndex ks' s)
    (hk : ks'[i]? = some k) : k < s := by
  simpa using (lowerBound_boundary id ks' s).before i hi k hk

theorem sorted_lt (hsorted : Sorted id ks) {i j : Nat} (hij : i < j) {x y : Slice}
    (hx : ks[i]? = some x) (hy : ks[j]? = some y) : x < y := by
  obtain ⟨hi, rfl⟩ := List.getElem?_eq_some_iff.mp hx
  obtain ⟨hj, rfl⟩ := List.getElem?_eq_some_iff.mp hy
  exact List.pairwise_iff_getElem.mp hsorted i j hi hj hij

/-- The answer to a key that is there. -/
theorem keyIndex_self (hsorted : Sorted id ks) {i : Nat} {k : Slice} (hk : ks[i]? = some k) :
    keyIndex ks k = i := by
  have hi := (List.getElem?_eq_some_iff.mp hk).1
  refine keyIndex_eq hsorted (Nat.le_of_lt hi) (fun j hj x hx => ?_) fun x hx => ?_
  · exact sorted_lt hsorted (by omega) hx hk
  · rw [hk] at hx
    exact le_of_eq (Option.some.inj hx)

/-- The answer between a key and the next one. -/
theorem keyIndex_between (hsorted : Sorted id ks) {i : Nat} {k s : Slice}
    (hk : ks[i]? = some k) (hks : k < s) (hnext : ∀ y, ks[i + 1]? = some y → s ≤ y) :
    keyIndex ks s = i + 1 := by
  have hi := (List.getElem?_eq_some_iff.mp hk).1
  refine keyIndex_eq hsorted hi (fun j hj x hx => ?_) hnext
  obtain rfl : j = i := by omega
  rw [hk] at hx
  rwa [← Option.some.inj hx]

/-- **Leaves.**  Keys on which every search ends as on keys in order are the
same keys. -/
theorem eq_of_keyIndex_eq (hsorted : Sorted id ks) (hlen : ks'.length = ks.length)
    (h : ∀ s, keyIndex ks' s = keyIndex ks s) : ks' = ks := by
  refine List.ext_getElem hlen fun i hi' hi => ?_
  have hk : ks[i]? = some ks[i] := List.getElem?_eq_getElem hi
  have hk' : ks'[i]? = some ks'[i] := List.getElem?_eq_getElem hi'
  refine le_antisymm ?_ ?_
  · -- search for the successor of the key
    have hnext : keyIndex ks (ks[i] ++ [0]) = i + 1 :=
      keyIndex_between hsorted hk (lt_append_zero _) fun y hy =>
        append_zero_le (sorted_lt hsorted (Nat.lt_succ_self i) hk hy)
    have hlt := lt_of_keyIndex (((h _).trans hnext).symm) hk'
    refine not_lt.mp fun hgt => ?_
    exact absurd hlt (not_lt.mpr (append_zero_le hgt))
  · -- search for the key itself
    have hself := (h ks[i]).trans (keyIndex_self hsorted hk)
    exact le_of_keyIndex (by rw [hself]; exact hk')

/-! #### Branches -/

/-- The child of a separator that is there. -/
theorem childOf_self (hsorted : Sorted id ks) {i : Nat} {k : Slice} (hk : ks[i]? = some k) :
    childOf ks k = i := by
  rw [childOf, keyIndex_self hsorted hk, hk]
  exact childIndex_eq_iff.mpr (Or.inl ⟨by simp, rfl⟩)

/-- The child between a separator and the next one. -/
theorem childOf_between (hsorted : Sorted id ks) {i : Nat} {k s : Slice}
    (hk : ks[i]? = some k) (hks : k < s) (hnext : ∀ y, ks[i + 1]? = some y → s < y) :
    childOf ks s = i := by
  rw [childOf, keyIndex_between hsorted hk hks fun y hy => le_of_lt (hnext y hy)]
  refine childIndex_eq_iff.mpr (Or.inr (Or.inl ⟨?_, rfl⟩))
  rw [Option.any_eq_false]
  intro y hy
  simpa using ne_of_gt (hnext y hy)

/-- What it takes to descend into child `i`, on any keys. -/
theorem childOf_cases {s : Slice} {i : Nat} (h : childOf ks' s = i) :
    ks'[i]? = some s ∨
      (∀ k, ks'[i]? = some k → k < s) ∧ (∀ k, ks'[i + 1]? = some k → s < k) ∨
        i = 0 ∧ ∀ k, ks'[0]? = some k → s < k := by
  have hgap : (ks'[keyIndex ks' s]?).any (fun k => decide (k = s)) = false →
      ∀ k, ks'[keyIndex ks' s]? = some k → s < k := by
    intro hex k hk
    refine lt_of_le_of_ne (le_of_keyIndex hk) fun heq => ?_
    rw [Option.any_eq_false] at hex
    exact absurd (hex k hk) (by simp [heq])
  -- found; stepped back; or nothing to step back to
  rcases childIndex_eq_iff.mp h with ⟨hex, hi⟩ | ⟨hex, hi⟩ | ⟨hex, hi, rfl⟩
  · obtain ⟨k, hk, heq⟩ := (Option.any_eq_true _ _).mp hex
    rw [hi] at hk
    exact Or.inl (hk.trans (congrArg some (of_decide_eq_true heq)))
  · have hright := hgap hex
    rw [hi] at hright
    exact Or.inr (Or.inl ⟨fun k hk => lt_of_keyIndex hi.symm hk, hright⟩)
  · have hright := hgap hex
    rw [hi] at hright
    exact Or.inr (Or.inr ⟨rfl, hright⟩)

variable (hsorted : Sorted id ks) (h : ∀ s, childOf ks' s = childOf ks s)

include hsorted h in
/-- **Branches, from above.**  From index 1 on no key may be larger. -/
theorem le_of_childOf_eq {i : Nat} (hi : 0 < i) {k k' : Slice} (hk : ks[i]? = some k)
    (hk' : ks'[i]? = some k') : k' ≤ k := by
  rcases childOf_cases ((h k).trans (childOf_self hsorted hk)) with heq | ⟨hlt, -⟩ | ⟨h0, -⟩
  · rw [hk'] at heq
    exact le_of_eq (Option.some.inj heq)
  · exact le_of_lt (hlt k' hk')
  · omega

include hsorted h in
/-- **Branches, from below.**  A key that does not fill the gap in front of
it may not lie in that gap. -/
theorem lt_of_childOf_eq {i : Nat} {k k' x x' s : Slice} (hk : ks[i]? = some k)
    (hx : ks[i + 1]? = some x) (hk' : ks'[i]? = some k') (hx' : ks'[i + 1]? = some x')
    (hks : k < s) (hk's : k' < s) (hsx : s < x) : s < x' := by
  have hchild : childOf ks s = i := childOf_between hsorted hk hks fun y hy => by
    rw [hx] at hy
    rwa [← Option.some.inj hy]
  rcases childOf_cases ((h s).trans hchild) with heq | ⟨-, hlt⟩ | ⟨rfl, hlt⟩
  · rw [hk'] at heq
    exact absurd hk's (not_lt.mpr (le_of_eq (Option.some.inj heq).symm))
  · exact hlt x' hx'
  · exact absurd (hlt k' hk') (not_lt.mpr (le_of_lt hk's))

include hsorted h in
/-- **Branches, the first key.**  It may not reach the second one. -/
theorem first_lt_of_childOf_eq {k x : Slice} (hx : ks[1]? = some x) (hx' : ks'[1]? = some x)
    (hk' : ks'[0]? = some k) : k < x := by
  have hchild := (h x).trans (childOf_self hsorted hx)
  rcases childIndex_eq_iff.mp hchild with ⟨-, hi⟩ | ⟨-, hi⟩ | ⟨-, -, h0⟩
  · exact lt_of_keyIndex (by rw [hi]) hk'
  · exact absurd (lt_of_keyIndex (by rw [hi]) hx') (lt_irrefl x)
  · cases h0

end

end BoltCpp
