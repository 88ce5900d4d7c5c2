/-
BoltCpp/Lib/SearchTree.lean

Multiway search trees.

`Ordered key t` asks for ascending separators in every branch and ascending
keys in every leaf, and that the separators bound the entries of the children
between them; the leftmost child has no lower bound.  A search for `k` goes
to a child that `Routes` allows.  Along a path that was chosen so, everything
to the left is below `k` and everything to the right above it (`Separates`),
so the entries from `k` on are what the last leaf has from the lower bound of
`k` on, and then all that follows (`Path.filter_ge`).
-/
import BoltCpp.Lib.KeyedList
import BoltCpp.Lib.MultiTree

universe u v

namespace MultiTree

variable {κ : Type u} {α : Type v} [LinearOrder κ] {key : α → κ}

/-- Keys and separators are in order. -/
def Ordered (key : α → κ) : MultiTree κ α → Prop
  | leaf es => KeyedList.Sorted key es
  | branch n sep child =>
      StrictMono sep ∧ (∀ i, (child i).Ordered key) ∧
        ∀ i, ∀ e ∈ (child i).elements,
          (0 < (i : Nat) → sep i ≤ key e) ∧ ∀ j : Fin n, (j : Nat) = i + 1 → key e < sep j

/-- The separators allow a search for `k` to go to child `c`. -/
structure Routes {n : Nat} (sep : Fin n → κ) (k : κ) (c : Fin n) : Prop where
  low : 0 < (c : Nat) → sep c ≤ k
  high : ∀ j, c < j → k < sep j

/-- All entries left of the frames are below `k`, all right of them above. -/
structure Separates (key : α → κ) (k : κ) (fs : List (Frame κ α)) : Prop where
  left : ∀ e ∈ (leavesBefore fs).flatten, key e < k
  right : ∀ e ∈ (leavesAfter fs).flatten, k < key e

/-! ### One branch -/

section

variable {n : Nat} {sep : Fin n → κ} {child : Fin n → MultiTree κ α}

theorem Ordered.lt_sep (h : (branch n sep child).Ordered key) {i j : Fin n} (hij : i < j)
    {e : α} (he : e ∈ (child i).elements) : key e < sep j := by
  have hi : (i : Nat) + 1 < n := by omega
  have hnext := (h.2.2 i e he).2 ⟨i + 1, hi⟩ rfl
  have hle : (⟨i + 1, hi⟩ : Fin n) ≤ j := by
    rw [Fin.le_def]
    exact hij
  exact lt_of_lt_of_le hnext (h.1.monotone hle)

theorem Ordered.sep_le (h : (branch n sep child).Ordered key) {i j : Fin n} (hij : i < j)
    {e : α} (he : e ∈ (child j).elements) : sep j ≤ key e :=
  (h.2.2 j e he).1 (by omega)

/-- Going down to the child a search is routed to keeps the separation. -/
theorem Separates.descend {k : κ} {fs : List (Frame κ α)} (hs : Separates key k fs)
    (h : (branch n sep child).Ordered key) {c : Fin n} (hc : Routes sep k c) :
    Separates key k ((branch n sep child, (c : Nat)) :: fs) := by
  refine ⟨fun e he => ?_, fun e he => ?_⟩
  · rw [leavesBefore, List.flatten_append, List.mem_append] at he
    rcases he with he | he
    · exact hs.left e he
    · obtain ⟨i, hi, he⟩ := mem_flatten_headLeaves he
      exact lt_of_lt_of_le (h.lt_sep (Fin.lt_def.mpr hi) he) (hc.low (by omega))
  · rw [leavesAfter, List.flatten_append, List.mem_append] at he
    rcases he with he | he
    · obtain ⟨i, hi, he⟩ := mem_flatten_tailLeaves he
      exact lt_of_lt_of_le (hc.high i (Fin.lt_def.mpr hi)) (h.sep_le (Fin.lt_def.mpr hi) he)
    · exact hs.right e he

end

/-! ### Whole trees -/

theorem Separates.nil (k : κ) : Separates key k ([] : List (Frame κ α)) :=
  ⟨fun _ he => absurd he List.not_mem_nil, fun _ he => absurd he List.not_mem_nil⟩

theorem Ordered.of_path {t u : MultiTree κ α} {i : Nat} {fs : List (Frame κ α)}
    (ht : t.Ordered key) (h : Path t ((u, i) :: fs)) : u.Ordered key :=
  h.inherit (fun _ _ _ ho => ho.2.1) ht

/-- **The entries of a search tree ascend.** -/
theorem Ordered.sorted_elements {t : MultiTree κ α} (h : t.Ordered key) :
    KeyedList.Sorted key t.elements := by
  induction t with
  | leaf es => rwa [elements_leaf]
  | branch n sep child ih =>
      have helements : (branch n sep child).elements
          = (List.ofFn fun i => (child i).elements).flatten := by
        rw [elements, leaves, List.flatten_flatten, List.map_ofFn]
        rfl
      rw [KeyedList.Sorted, helements, List.pairwise_flatten]
      refine ⟨fun es hes => ?_, ?_⟩
      · obtain ⟨i, rfl⟩ := List.mem_ofFn.mp hes
        exact ih i (h.2.1 i)
      · rw [List.pairwise_ofFn]
        intro i j hij x hx y hy
        exact lt_of_lt_of_le (h.lt_sep hij hx) (h.sep_le hij hy)

/-- **The entries from `k` on**, seen from the leaf a search for `k` ends in. -/
theorem Path.filter_ge {t : MultiTree κ α} {es : List α} {i : Nat} {fs : List (Frame κ α)}
    (hp : Path t ((leaf es, i) :: fs)) {k : κ} (hs : Separates key k fs)
    (hes : KeyedList.Sorted key es) :
    t.elements.filter (fun e => k ≤ key e)
      = es.drop (KeyedList.lowerBound key es k) ++ (leavesAfter fs).flatten := by
  have hleft : (leavesBefore fs).flatten.filter (fun e => k ≤ key e) = [] := by
    rw [List.filter_eq_nil_iff]
    intro e he
    simpa using hs.left e he
  have hright : (leavesAfter fs).flatten.filter (fun e => k ≤ key e)
      = (leavesAfter fs).flatten := by
    rw [List.filter_eq_self]
    intro e he
    simpa using le_of_lt (hs.right e he)
  rw [elements, hp.leaves_eq, leaves_leaf, List.flatten_append, List.flatten_append,
    List.filter_append, List.filter_append, hleft, hright, List.flatten_singleton,
    List.nil_append, hes.drop_lowerBound]

end MultiTree
