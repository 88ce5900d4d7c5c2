/-
BoltCpp/Lib/LeafRow.lean

The leaves of a multiway search tree in a row.

`leafOf k t` is the number of the leaf a search for `k` goes to.  An update is
a change of that leaf and no other,

    (t.update k f).leaves = t.leaves.modify (t.leafOf k) f

(`leaves_update`), and it leads no search elsewhere (`leafOf_update`).
-/
import BoltCpp.Lib.TreeUpdate

universe u v

namespace MultiTree

variable {κ : Type u} {α : Type v}

/-- One list of a row of lists, and what is on either side. -/
theorem flatten_ofFn_split {β : Type*} {n : Nat} (f : Fin n → List β) (i : Fin n) :
    (List.ofFn f).flatten
      = ((List.ofFn f).take i).flatten ++ f i ++ ((List.ofFn f).drop (i + 1)).flatten := by
  have hi : (i : Nat) < (List.ofFn f).length := by simp
  have hsplit : List.ofFn f = (List.ofFn f).take i ++ f i :: (List.ofFn f).drop (i + 1) := by
    conv_lhs => rw [← List.take_append_drop i (List.ofFn f)]
    rw [List.drop_eq_getElem_cons hi, List.getElem_ofFn]
  conv_lhs => rw [hsplit]
  simp

/-- The leaves of the children before child `i`. -/
def leavesLeft {n : Nat} (child : Fin n → MultiTree κ α) (i : Nat) : Nat :=
  ((List.ofFn fun j => (child j).leaves.length).take i).sum

theorem length_headLeaves {n : Nat} (sep : Fin n → κ) (child : Fin n → MultiTree κ α) (i : Nat) :
    (headLeaves (branch n sep child, i)).length = leavesLeft child i := by
  rw [headLeaves, List.length_flatten, List.map_take, List.map_ofFn, leavesLeft]
  rfl

variable [LinearOrder κ] {k : κ}

/-- The number of the leaf a search for `k` goes to. -/
def leafOf (k : κ) : MultiTree κ α → Nat
  | leaf _ => 0
  | branch n sep child =>
      match (List.finRange n).find? fun i => decide (Routes sep k i) with
      | some c => leavesLeft child c + (child c).leafOf k
      | none => 0

theorem leafOf_branch {n : Nat} {sep : Fin n → κ} (child : Fin n → MultiTree κ α) {c : Fin n}
    (hc : Routes sep k c) :
    (branch n sep child).leafOf k = leavesLeft child c + (child c).leafOf k := by
  have hfind : (List.finRange n).find? (fun i => decide (Routes sep k i)) = some c := by
    rcases hf : (List.finRange n).find? (fun i => decide (Routes sep k i)) with - | c'
    · exact absurd hc (by simpa using List.find?_eq_none.mp hf c (List.mem_finRange c))
    · have hc' : Routes sep k c' := by simpa using List.find?_some hf
      rw [hc.unique hc']
  rw [leafOf, hfind]

/-- There is such a leaf. -/
theorem leafOf_lt {t : MultiTree κ α} (hne : t.BranchesNonempty) :
    t.leafOf k < t.leaves.length := by
  induction t with
  | leaf es => exact Nat.one_pos
  | branch n sep child ih =>
      obtain ⟨c, hc⟩ := exists_routes sep k hne.1
      have hlt := ih c (hne.2 c)
      have hlen := congrArg List.length (leaves_branch_split n sep child c)
      rw [List.length_append, List.length_append] at hlen
      have hleft := length_headLeaves sep child c
      rw [headLeaves] at hleft
      rw [leafOf_branch child hc, hlen, hleft]
      omega

omit [LinearOrder κ] in
/-- Changing one entry of the middle part. -/
theorem modify_middle {β : Type*} (f : β → β) (l m r : List β) {i : Nat} (hi : i < m.length) :
    (l ++ m ++ r).modify (l.length + i) f = l ++ m.modify i f ++ r := by
  induction l with
  | nil =>
      rw [List.length_nil, Nat.zero_add, List.nil_append, List.nil_append]
      induction m generalizing i with
      | nil => exact absurd hi (Nat.not_lt_zero i)
      | cons x m ih =>
          rcases i with - | i
          · rfl
          · rw [List.cons_append, List.modify_succ_cons, List.modify_succ_cons,
              ih (Nat.lt_of_succ_lt_succ hi), List.cons_append]
  | cons x l ih =>
      have hlen : (x :: l).length + i = l.length + i + 1 := by
        rw [List.length_cons]
        omega
      rw [hlen, List.cons_append, List.cons_append, List.modify_succ_cons, ih, List.cons_append,
        List.cons_append]

omit [LinearOrder κ] in
theorem modify_congr {β : Type*} {f g : β → β} {l : List β} {i : Nat}
    (h : ∀ x, l[i]? = some x → f x = g x) : l.modify i f = l.modify i g := by
  refine List.ext_getElem? fun j => ?_
  rw [List.getElem?_modify, List.getElem?_modify]
  by_cases hij : i = j
  · subst hij
    rcases hx : l[i]? with - | x
    · rfl
    · simp [h x hx]
  · simp only [hij, if_false]

variable {f : List α → List α}

/-- **The leaves of the updated tree.** -/
theorem leaves_update {t : MultiTree κ α} (hne : t.BranchesNonempty) :
    (t.update k f).leaves = t.leaves.modify (t.leafOf k) f := by
  induction t with
  | leaf es => rfl
  | branch n sep child ih =>
      obtain ⟨c, hc⟩ := exists_routes sep k hne.1
      have hleft := length_headLeaves sep child c
      rw [headLeaves] at hleft
      have hsame : ∀ u : MultiTree κ α, List.ofFn (fun j => (Function.update child c u j).leaves)
          = (List.ofFn fun j => (child j).leaves).set c u.leaves := by
        intro u
        refine List.ext_getElem (by simp) fun i hi _ => ?_
        rw [List.getElem_ofFn, List.getElem_set]
        by_cases heq : (c : Nat) = i
        · have : (⟨i, by simpa using hi⟩ : Fin n) = c := Fin.ext heq.symm
          rw [if_pos heq, this, Function.update_self]
        · have : (⟨i, by simpa using hi⟩ : Fin n) ≠ c := fun h => heq (congrArg Fin.val h).symm
          rw [if_neg heq, Function.update_of_ne this, List.getElem_ofFn]
      rw [update_branch child hc, leaves_branch_split n sep _ c, Function.update_self,
        ih c (hne.2 c), hsame, List.take_set_of_le (Nat.le_refl _),
        List.drop_set_of_lt (Nat.lt_succ_self _), leafOf_branch child hc,
        leaves_branch_split n sep child c, ← hleft, modify_middle f _ _ _ (leafOf_lt (hne.2 c))]

theorem length_leaves_update {t : MultiTree κ α} (hne : t.BranchesNonempty) :
    (t.update k f).leaves.length = t.leaves.length := by
  rw [leaves_update hne, List.length_modify]

/-- An update leads no search elsewhere. -/
theorem leafOf_update {t : MultiTree κ α} (hne : t.BranchesNonempty) (k' : κ) :
    (t.update k f).leafOf k' = t.leafOf k' := by
  induction t with
  | leaf es => rfl
  | branch n sep child ih =>
      obtain ⟨c, hc⟩ := exists_routes sep k' hne.1
      have hlen : ∀ i, (if Routes sep k i then (child i).update k f else child i).leaves.length
          = (child i).leaves.length := by
        intro i
        split
        · exact length_leaves_update (hne.2 i)
        · rfl
      rw [update, leafOf_branch _ hc, leafOf_branch _ hc]
      refine congrArg₂ (· + ·) ?_ ?_
      · simp only [leavesLeft, hlen]
      · split
        · exact ih c (hne.2 c)
        · rfl

end MultiTree
