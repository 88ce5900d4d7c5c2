/-
BoltCpp/Lib/TreeUpdate.lean

Updates of multiway search trees.

`update k f t` applies `f` to the leaf a search for `k` is routed to and
leaves the rest of `t` alone.  An `f` that works on the entries with key `k`
only is `LocalAt k`; then an ordered tree stays ordered (`Ordered.update`),
and its entries are

    (t.update k f).elements = f t.elements

(`elements_update`), as if `f` had been given all of them.  Filing an entry
and erasing a key are local.
-/
import BoltCpp.Lib.SearchTree
import Mathlib.Data.Finset.Max
import Mathlib.Data.Fintype.Basic

universe u v

/-! ### Local functions on keyed lists -/

namespace KeyedList

variable {α κ : Type*} [LinearOrder κ] {key : α → κ}

/-- `f` works on the entries with key `k` and passes the others through. -/
structure LocalAt (key : α → κ) (k : κ) (f : List α → List α) : Prop where
  sorted : ∀ {es}, Sorted key es → Sorted key (f es)
  mem : ∀ {es e}, e ∈ f es → e ∈ es ∨ key e = k
  frame : ∀ {l m r}, (∀ e ∈ l, key e < k) → (∀ e ∈ r, k < key e) → f (l ++ m ++ r) = l ++ f m ++ r

theorem filter_lt_append {k : κ} {l m r : List α} (hl : ∀ e ∈ l, key e < k)
    (hr : ∀ e ∈ r, k < key e) :
    (l ++ m ++ r).filter (fun y => key y < k) = l ++ m.filter fun y => key y < k := by
  have hleft : l.filter (fun y => key y < k) = l :=
    List.filter_eq_self.mpr fun e he => decide_eq_true (hl e he)
  have hright : r.filter (fun y => key y < k) = [] :=
    List.filter_eq_nil_iff.mpr fun e he => by simpa using le_of_lt (hr e he)
  rw [List.filter_append, List.filter_append, hleft, hright, List.append_nil]

theorem filter_gt_append {k : κ} {l m r : List α} (hl : ∀ e ∈ l, key e < k)
    (hr : ∀ e ∈ r, k < key e) :
    (l ++ m ++ r).filter (fun y => k < key y) = m.filter (fun y => k < key y) ++ r := by
  have hleft : l.filter (fun y => k < key y) = [] :=
    List.filter_eq_nil_iff.mpr fun e he => by simpa using le_of_lt (hl e he)
  have hright : r.filter (fun y => k < key y) = r :=
    List.filter_eq_self.mpr fun e he => decide_eq_true (hr e he)
  rw [List.filter_append, List.filter_append, hleft, hright, List.nil_append]

theorem localAt_insert (x : α) : LocalAt key (key x) (insert key x) where
  sorted h := h.insert x
  mem he := (mem_insert.mp he).elim (fun h => .inr (congrArg key h)) fun h => .inl h.1
  frame hl hr := by
    rw [insert, filter_lt_append hl hr, filter_gt_append hl hr, insert]
    simp only [List.append_assoc, List.cons_append]

theorem localAt_erase (k : κ) : LocalAt key k (erase key k) where
  sorted h := h.erase k
  mem he := .inl (mem_erase.mp he).1
  frame {l m r} hl hr := by
    have hleft : erase key k l = l :=
      List.filter_eq_self.mpr fun e he => by simpa using ne_of_lt (hl e he)
    have hright : erase key k r = r :=
      List.filter_eq_self.mpr fun e he => by simpa using ne_of_gt (hr e he)
    rw [erase, List.filter_append, List.filter_append]
    exact congrArg₂ (· ++ ·) (congrArg (· ++ _) hleft) hright

end KeyedList

namespace MultiTree

variable {κ : Type u} {α : Type v} [LinearOrder κ] {key : α → κ}

/-! ### Routes -/

section

variable {n : Nat} {sep : Fin n → κ} {k : κ}

instance (c : Fin n) : Decidable (Routes sep k c) :=
  decidable_of_iff ((0 < (c : Nat) → sep c ≤ k) ∧ ∀ j, c < j → k < sep j)
    ⟨fun h => ⟨h.1, h.2⟩, fun h => ⟨h.low, h.high⟩⟩

/-- There is one child to go to. -/
theorem Routes.unique {c c' : Fin n} (h : Routes sep k c) (h' : Routes sep k c') : c = c' := by
  rcases lt_trichotomy c c' with hlt | heq | hgt
  · exact absurd (h.high c' hlt) (not_lt.mpr (h'.low (by omega)))
  · exact heq
  · exact absurd (h'.high c hgt) (not_lt.mpr (h.low (by omega)))

theorem exists_routes (sep : Fin n → κ) (k : κ) (hn : 0 < n) : ∃ c, Routes sep k c := by
  -- the last child that is the first one or has its separator at `k` or below
  let S : Finset (Fin n) := Finset.univ.filter fun i => (i : Nat) = 0 ∨ sep i ≤ k
  have hS : S.Nonempty := ⟨⟨0, hn⟩, by simp [S]⟩
  have hmax : (S.max' hS : Nat) = 0 ∨ sep (S.max' hS) ≤ k := by
    simpa [S] using S.max'_mem hS
  refine ⟨S.max' hS, fun hpos => hmax.resolve_left (by omega), fun j hj => ?_⟩
  by_contra hle
  have hmem : j ∈ S := by simp [S, not_lt.mp hle]
  exact absurd (S.le_max' j hmem) (not_le.mpr hj)

end

/-! ### Updates -/

/-- Apply `f` to the leaf a search for `k` goes to. -/
def update (k : κ) (f : List α → List α) : MultiTree κ α → MultiTree κ α
  | leaf es => leaf (f es)
  | branch n sep child =>
      branch n sep fun i => if Routes sep k i then (child i).update k f else child i

omit [LinearOrder κ] in
/-- The replaced child stands where its predecessor stood. -/
theorem elements_branch_update {n : Nat} (sep : Fin n → κ) (child : Fin n → MultiTree κ α)
    (c : Fin n) (u : MultiTree κ α) :
    (branch n sep (Function.update child c u)).elements
      = (headLeaves (branch n sep child, (c : Nat))).flatten ++ u.elements
        ++ (tailLeaves (branch n sep child, (c : Nat))).flatten := by
  have hlist : List.ofFn (fun j => (Function.update child c u j).leaves)
      = (List.ofFn fun j => (child j).leaves).set c u.leaves := by
    refine List.ext_getElem (by simp) fun i hi _ => ?_
    rw [List.getElem_ofFn, List.getElem_set]
    by_cases heq : (c : Nat) = i
    · have : (⟨i, by simpa using hi⟩ : Fin n) = c := Fin.ext heq.symm
      rw [if_pos heq, this, Function.update_self]
    · have : (⟨i, by simpa using hi⟩ : Fin n) ≠ c := fun h => heq (congrArg Fin.val h).symm
      rw [if_neg heq, Function.update_of_ne this, List.getElem_ofFn]
  have hc : (c : Nat) < (List.ofFn fun j => (child j).leaves).length := by simp
  rw [elements, leaves, hlist, List.set_eq_take_append_cons_drop, if_pos hc]
  simp only [headLeaves, tailLeaves, elements, List.flatten_append, List.flatten_cons,
    List.append_assoc]

omit [LinearOrder κ] in
theorem elements_branch {n : Nat} (sep : Fin n → κ) (child : Fin n → MultiTree κ α) (c : Fin n) :
    (branch n sep child).elements
      = (headLeaves (branch n sep child, (c : Nat))).flatten ++ (child c).elements
        ++ (tailLeaves (branch n sep child, (c : Nat))).flatten := by
  have h := elements_branch_update sep child c (child c)
  rwa [Function.update_eq_self] at h

section

variable {k : κ} {f : List α → List α}

theorem update_branch {n : Nat} {sep : Fin n → κ} (child : Fin n → MultiTree κ α) {c : Fin n}
    (hc : Routes sep k c) :
    (branch n sep child).update k f
      = branch n sep (Function.update child c ((child c).update k f)) := by
  rw [update]
  refine congrArg _ (funext fun i => ?_)
  by_cases hi : i = c
  · subst hi
    rw [if_pos hc, Function.update_self]
  · rw [if_neg fun h => hi (h.unique hc), Function.update_of_ne hi]

theorem size_update (t : MultiTree κ α) : (t.update k f).size = t.size := by
  induction t with
  | leaf es => rfl
  | branch n sep child ih =>
      have hsize : ∀ i, (if Routes sep k i then (child i).update k f else child i).size
          = (child i).size := by
        intro i
        split
        · exact ih i
        · rfl
      simp only [update, size, hsize]

/-- The steps of a walk through the tree stay as many. -/
theorem steps_update (t : MultiTree κ α) :
    (t.update k f).width * (t.update k f).weight = t.width * t.weight := by
  induction t with
  | leaf es => simp only [update, weight, Nat.mul_zero]
  | branch n sep child ih =>
      have hsteps : ∀ i, (if Routes sep k i then (child i).update k f else child i).width
          * (if Routes sep k i then (child i).update k f else child i).weight
          = (child i).width * (child i).weight := by
        intro i
        split
        · exact ih i
        · rfl
      rw [update, weight, weight]
      simp only [hsteps]
      rfl

theorem BranchesNonempty.update {t : MultiTree κ α} (ht : t.BranchesNonempty) :
    (t.update k f).BranchesNonempty := by
  induction t with
  | leaf es => trivial
  | branch n sep child ih =>
      refine ⟨ht.1, fun i => ?_⟩
      beta_reduce
      split
      · exact ih i (ht.2 i)
      · exact ht.2 i

variable (hf : KeyedList.LocalAt key k f)

include hf in
/-- **The entries of the updated tree** are the updated entries of the tree. -/
theorem elements_update {t : MultiTree κ α} (ho : t.Ordered key) (hne : t.BranchesNonempty) :
    (t.update k f).elements = f t.elements := by
  induction t with
  | leaf es => simp only [update, elements_leaf]
  | branch n sep child ih =>
      obtain ⟨c, hc⟩ := exists_routes sep k hne.1
      -- what lies left of the child is below `k`, what lies right of it above
      have hsep := (Separates.nil k).descend ho hc
      rw [update_branch child hc, elements_branch_update, ih c (ho.2.1 c) (hne.2 c),
        elements_branch sep child c, hf.frame]
      · intro e he
        refine hsep.left e ?_
        simpa only [leavesBefore, List.nil_append] using he
      · intro e he
        refine hsep.right e ?_
        simpa only [leavesAfter, List.append_nil] using he

include hf in
/-- **An update keeps the order.** -/
theorem Ordered.update {t : MultiTree κ α} (ho : t.Ordered key) (hne : t.BranchesNonempty) :
    (t.update k f).Ordered key := by
  induction t with
  | leaf es => exact hf.sorted ho
  | branch n sep child ih =>
      refine ⟨ho.1, fun i => ?_, fun i e he => ?_⟩
      · beta_reduce
        split
        · exact ih i (ho.2.1 i) (hne.2 i)
        · exact ho.2.1 i
      · beta_reduce at he
        by_cases hi : Routes sep k i
        · rw [if_pos hi, elements_update hf (ho.2.1 i) (hne.2 i)] at he
          rcases hf.mem he with he | rfl
          · exact ho.2.2 i e he
          · -- an entry with the key lies where the key was routed to
            exact ⟨hi.low, fun j hj => hi.high j (by omega)⟩
        · rw [if_neg hi] at he
          exact ho.2.2 i e he

end

end MultiTree
