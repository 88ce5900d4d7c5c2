/-
BoltCpp/CursorRow.lean

Where a cursor is in a bucket of nodes.

Entries come and go, but the nodes of the tree stay where they are.  So `Leads`
says in terms of the shape alone which subtree a stack leads to and how many
leaves lie left of it; whatever is done to the entries, the stack leads there
still.  The loops of the cursor become steps from one number to the next: the
inner loop of `next_` with the descent after it goes from leaf `a` to leaf
`a + 1` (`stepForward_lands`, `first_lands`), `last_` goes to the last one
(`last_lands`), and `search` to the one the key is routed to (`search_lands`).
-/
import BoltCpp.TreeDelete
import BoltCpp.Lib.LeafRow

namespace BoltCpp

open KeyedList MultiTree

namespace NodeTree

variable {h : Heap} {b : Bucket} {S T : NodeTree}

/-! ### The row of leaves -/

/-- The leaves, left to right, with their levels; the root is at level `d`. -/
def levels (d : Nat) : NodeTree → List (NodePtr × Nat)
  | leaf q => [(q, d)]
  | branch _ _ child => (List.ofFn fun i => (child i).levels (d + 1)).flatten

def leafCount : NodeTree → Nat
  | leaf _ => 1
  | branch _ _ child => (List.ofFn fun i => (child i).leafCount).sum

/-- The leaves of the children before child `i`. -/
def countLeft {n : Nat} (child : Fin n → NodeTree) (i : Nat) : Nat :=
  ((List.ofFn fun j => (child j).leafCount).take i).sum

/-- What the leaves hold. -/
def row (h : Heap) (S : NodeTree) : List (List Entry) :=
  (S.levels 1).map fun q => (h.node q.1).inodes.map INode.entry

theorem length_levels (T : NodeTree) : ∀ d, (T.levels d).length = T.leafCount := by
  induction T with
  | leaf q => exact fun _ => rfl
  | branch q n child ih =>
      intro d
      rw [levels, leafCount, List.length_flatten, List.map_ofFn]
      simp only [Function.comp_def, ih]

theorem length_row (h : Heap) (S : NodeTree) : (S.row h).length = S.leafCount := by
  rw [row, List.length_map, length_levels]

theorem leaves_contents (h : Heap) (T : NodeTree) : ∀ d, (T.contents h).leaves
    = (T.levels d).map fun q => (h.node q.1).inodes.map INode.entry := by
  induction T with
  | leaf q => exact fun _ => rfl
  | branch q n child ih =>
      intro d
      rw [contents, leaves, levels, List.map_flatten, List.map_ofFn]
      simp only [Function.comp_def, ih _ (d + 1)]

theorem leaves_eq_row (h : Heap) (S : NodeTree) : (S.contents h).leaves = S.row h :=
  leaves_contents h S 1

theorem length_leaves (h : Heap) (T : NodeTree) : (T.contents h).leaves.length = T.leafCount := by
  rw [leaves_contents h T 0, List.length_map, length_levels]

theorem leavesLeft_contents {n : Nat} (h : Heap) (child : Fin n → NodeTree) (i : Nat) :
    leavesLeft (fun j => (child j).contents h) i = countLeft child i := by
  simp only [leavesLeft, length_leaves, countLeft]

theorem countLeft_zero {n : Nat} (child : Fin n → NodeTree) : countLeft child 0 = 0 := by
  rw [countLeft, List.take_zero, List.sum_nil]

theorem countLeft_succ {n : Nat} (child : Fin n → NodeTree) (i : Fin n) :
    countLeft child (i + 1) = countLeft child i + (child i).leafCount := by
  have hi : (i : Nat) < (List.ofFn fun j => (child j).leafCount).length := by simp
  rw [countLeft, List.take_add_one, List.sum_append, List.getElem?_eq_getElem hi,
    List.getElem_ofFn, countLeft]
  simp

theorem countLeft_all {q : NodePtr} {n : Nat} (child : Fin n → NodeTree) :
    countLeft child n = (branch q n child).leafCount := by
  rw [countLeft, leafCount, List.take_of_length_le (by simp)]

/-! ### Where a stack leads -/

/-- The stack leads to the subtree, with `a` leaves left of it. -/
inductive Leads (S : NodeTree) : Cursor.Stack → NodeTree → Nat → Prop
  | root (j : Int) : Leads S [⟨none, some S.ptr, j⟩] S 0
  | child {rest : Cursor.Stack} {q : NodePtr} {n : Nat} {child : Fin n → NodeTree} {a : Nat}
      {i : Fin n} (hl : Leads S (⟨none, some q, (i : Nat)⟩ :: rest) (branch q n child) a)
      (j : Int) :
      Leads S (⟨none, some (child i).ptr, j⟩ :: ⟨none, some q, (i : Nat)⟩ :: rest) (child i)
        (a + countLeft child i)

variable {ref : ElemRef} {rest stack : Cursor.Stack} {a : Nat}

/-- The first index is free. -/
theorem Leads.reindex (hl : Leads S (ref :: rest) T a) (j : Int) :
    Leads S (⟨none, some T.ptr, j⟩ :: rest) T a := by
  cases hl with
  | root => exact .root j
  | child hl => exact .child hl j

theorem Leads.fits (hl : Leads S stack T a) (hS : S.Fits h b) : T.Fits h b := by
  induction hl with
  | root => exact hS
  | child hl j ih => exact (ih.2.2 _).2

theorem Leads.nonempty (hl : Leads S stack T a) (hne : (S.contents h).BranchesNonempty) :
    (T.contents h).BranchesNonempty := by
  induction hl with
  | root => exact hne
  | child hl j ih => exact ih.2 _

theorem Leads.size_le (hl : Leads S stack T a) :
    (T.contents h).size ≤ (S.contents h).size := by
  induction hl with
  | root => exact Nat.le_refl _
  | @child rest q n child a i hl j ih =>
      have hlt := size_child_lt n (fun i : Fin n => (inodeAt (h.node q) i).key)
        (fun i => (child i).contents h) i
      exact Nat.le_of_lt (Nat.lt_of_lt_of_le hlt ih)

/-- The leaves of the subtree in the row of all leaves. -/
theorem Leads.levels_eq (hl : Leads S stack T a) :
    ∃ l r, S.levels 1 = l ++ T.levels stack.length ++ r ∧ l.length = a := by
  induction hl with
  | root => exact ⟨[], [], by simp, rfl⟩
  | @child rest q n child a i hl j ih =>
      obtain ⟨l, r, hlevels, hlen⟩ := ih
      rw [levels, flatten_ofFn_split _ i] at hlevels
      refine ⟨l ++ ((List.ofFn fun j => (child j).levels (rest.length + 2)).take i).flatten,
        ((List.ofFn fun j => (child j).levels (rest.length + 2)).drop (i + 1)).flatten ++ r, ?_, ?_⟩
      · rw [hlevels]
        simp only [List.length_cons, List.append_assoc]
      · rw [List.length_append, hlen, List.length_flatten, List.map_take, List.map_ofFn, countLeft]
        simp only [Function.comp_def, length_levels]

theorem Leads.level {q : NodePtr} (hl : Leads S stack (leaf q) a) :
    (S.levels 1)[a]? = some (q, stack.length) := by
  obtain ⟨l, r, hlevels, rfl⟩ := hl.levels_eq
  rw [hlevels, levels, List.append_assoc, List.getElem?_append_right (Nat.le_refl _),
    Nat.sub_self]
  rfl

/-- The leaf a stack leads to. -/
theorem Leads.row_eq {q : NodePtr} (hl : Leads S stack (leaf q) a) (h : Heap) :
    (S.row h)[a]? = some ((h.node q).inodes.map INode.entry) := by
  rw [row, List.getElem?_map, hl.level]
  rfl

theorem Leads.lt {q : NodePtr} (hl : Leads S stack (leaf q) a) : a < S.leafCount := by
  have hlt := (List.getElem?_eq_some_iff.mp hl.level).1
  rwa [length_levels] at hlt

/-- **The route of a key that is there** goes through the subtree it is in. -/
theorem Leads.routes {stack : Cursor.Stack} (hl : Leads S stack T a)
    (ho : (S.contents h).Ordered Entry.key) :
    (T.contents h).Ordered Entry.key ∧ ∀ e ∈ (T.contents h).elements,
      (S.contents h).leafOf e.key = a + (T.contents h).leafOf e.key ∧
        ∀ q, RoutesTo h e.key T q → RoutesTo h e.key S q := by
  induction hl with
  | root => exact ⟨ho, fun e _ => ⟨(Nat.zero_add _).symm, fun _ hq => hq⟩⟩
  | @child rest q n child a i hl j ih =>
      refine ⟨ih.1.2.1 i, fun e he => ?_⟩
      have hroutes := routes_of_mem ih.1 he
      have hmem : e ∈ ((branch q n child).contents h).elements := by
        rw [contents, elements_branch _ _ i]
        exact List.mem_append_left _ (List.mem_append_right _ he)
      obtain ⟨hleaf, hroute⟩ := ih.2 e hmem
      refine ⟨?_, fun r hr => hroute r (.branch hroutes hr)⟩
      rw [hleaf, contents, leafOf_branch _ hroutes, leavesLeft_contents, Nat.add_assoc]

/-! ### Descending -/

theorem isLeaf_node (h : Heap) (q : NodePtr) (j : Int) :
    (⟨none, some q, j⟩ : ElemRef).isLeaf h = .ok (h.node q).isLeaf_ := rfl

theorem count_node (h : Heap) (q : NodePtr) (j : Int) :
    (⟨none, some q, j⟩ : ElemRef).count h = .ok ((h.node q).inodes.length : Int) := rfl

/-- The id of a child. -/
theorem Fits.childId {q : NodePtr} {n : Nat} {child : Fin n → NodeTree}
    (hS : (branch q n child).Fits h b) (i : Fin n) :
    ∃ id, (⟨none, some q, (i : Nat)⟩ : ElemRef).childId h = .ok id ∧
      b.pageNode id = .ok (none, some (child i).ptr) := by
  have hi : (i : Nat) < (h.node q).inodes.length := by
    rw [hS.2.1]
    exact i.isLt
  have hchild := (hS.2.2 i).1
  rw [inodeAt, List.getElem?_eq_getElem hi, Option.getD_some] at hchild
  refine ⟨_, ?_, hchild⟩
  simp only [ElemRef.childId, vecAt_ofNat (List.getElem?_eq_getElem hi)]
  rfl

/-- One round of `first_`. -/
theorem first_round {q : NodePtr} {n : Nat} {child : Fin n → NodeTree}
    (hS : (branch q n child).Fits h b) (i : Fin n) (rest : Cursor.Stack) (fuel : Nat) :
    Cursor.first_ h b (fuel + 1) (⟨none, some q, (i : Nat)⟩ :: rest)
      = Cursor.first_ h b fuel
          (⟨none, some (child i).ptr, 0⟩ :: ⟨none, some q, (i : Nat)⟩ :: rest) := by
  obtain ⟨id, hid, hp⟩ := hS.childId i
  simp only [Cursor.first_, Cursor.back, pure_bind, isLeaf_node, hS.1, ok_bind,
    Bool.false_eq_true, if_false, hid, hp]

/-- **`first_` goes to the first leaf** of the subtree. -/
theorem first_lands (hS : S.Fits h b) (T : NodeTree) :
    ∀ {rest : Cursor.Stack} {a fuel : Nat}, Leads S (⟨none, some T.ptr, 0⟩ :: rest) T a →
      (T.contents h).BranchesNonempty → (T.contents h).size ≤ fuel →
      ∃ q rest', Cursor.first_ h b fuel (⟨none, some T.ptr, 0⟩ :: rest)
          = .ok (⟨none, some q, 0⟩ :: rest') ∧
        Leads S (⟨none, some q, 0⟩ :: rest') (leaf q) a := by
  induction T with
  | leaf q =>
      intro rest a fuel hl _ hfuel
      obtain ⟨k, rfl⟩ : ∃ k, fuel = k + 1 :=
        ⟨fuel - 1, by simp only [contents, MultiTree.size] at hfuel; omega⟩
      refine ⟨q, rest, ?_, hl⟩
      have hleaf : (h.node q).isLeaf_ = true := hl.fits hS
      simp only [Cursor.first_, Cursor.back, pure_bind, ptr, isLeaf_node, hleaf, ok_bind, if_true]
      rfl
  | branch p n child ih =>
      intro rest a fuel hl hne hfuel
      have hn : 0 < n := hne.1
      have hlt := size_child_lt n (fun i : Fin n => (inodeAt (h.node p) i).key)
        (fun i => (child i).contents h) ⟨0, hn⟩
      simp only [contents] at hfuel
      obtain ⟨k, rfl⟩ : ∃ k, fuel = k + 1 := ⟨fuel - 1, by omega⟩
      have hround := first_round (hl.fits hS) ⟨0, hn⟩ rest k
      have hchild := Leads.child (i := ⟨0, hn⟩) hl 0
      rw [countLeft_zero, Nat.add_zero] at hchild
      obtain ⟨q, rest', hrun, hl'⟩ :=
        ih ⟨0, hn⟩ hchild (hne.2 _) (Nat.lt_succ_iff.mp (hlt.trans_le hfuel))
      exact ⟨q, rest', hround.trans hrun, hl'⟩

/-- The index `count() - 1`. -/
def lastIndex (h : Heap) (q : NodePtr) : Int := ((h.node q).inodes.length : Int) - 1

/-- **`last_` goes to the last leaf** of the subtree. -/
theorem last_lands (hS : S.Fits h b) (T : NodeTree) :
    ∀ {rest : Cursor.Stack} {a fuel : Nat},
      Leads S (⟨none, some T.ptr, lastIndex h T.ptr⟩ :: rest) T a →
      (T.contents h).BranchesNonempty → (T.contents h).size ≤ fuel →
      ∃ q rest' a', Cursor.last_ h b fuel (⟨none, some T.ptr, lastIndex h T.ptr⟩ :: rest)
          = .ok (⟨none, some q, lastIndex h q⟩ :: rest') ∧
        Leads S (⟨none, some q, lastIndex h q⟩ :: rest') (leaf q) a' ∧
        a' + 1 = a + T.leafCount := by
  induction T with
  | leaf q =>
      intro rest a fuel hl _ hfuel
      obtain ⟨k, rfl⟩ : ∃ k, fuel = k + 1 :=
        ⟨fuel - 1, by simp only [contents, MultiTree.size] at hfuel; omega⟩
      refine ⟨q, rest, a, ?_, hl, rfl⟩
      have hleaf : (h.node q).isLeaf_ = true := hl.fits hS
      simp only [Cursor.last_, Cursor.back, pure_bind, ptr, isLeaf_node, hleaf, ok_bind, if_true]
      rfl
  | branch p n child ih =>
      intro rest a fuel hl hne hfuel
      have hn : n - 1 < n := Nat.sub_one_lt (Nat.pos_iff_ne_zero.mp hne.1)
      have hfits := hl.fits hS
      have hindex : lastIndex h p = ((⟨n - 1, hn⟩ : Fin n) : Nat) := by
        rw [lastIndex, hfits.2.1]
        show (n : Int) - 1 = ((n - 1 : Nat) : Int)
        omega
      have hlt := size_child_lt n (fun i : Fin n => (inodeAt (h.node p) i).key)
        (fun i => (child i).contents h) ⟨n - 1, hn⟩
      simp only [contents] at hfuel
      obtain ⟨k, rfl⟩ : ∃ k, fuel = k + 1 := ⟨fuel - 1, by omega⟩
      simp only [ptr, hindex] at hl ⊢
      -- one round goes to the last child, at its last index
      obtain ⟨id, hid, hp⟩ := hfits.childId ⟨n - 1, hn⟩
      obtain ⟨q, rest', a', hrun, hl', hlast⟩ := ih ⟨n - 1, hn⟩ (.child hl _) (hne.2 _)
        (Nat.lt_succ_iff.mp (hlt.trans_le hfuel))
      refine ⟨q, rest', a', ?_, hl', ?_⟩
      · simp only [Cursor.last_, Cursor.back, pure_bind, isLeaf_node, hfits.1, ok_bind,
          Bool.false_eq_true, if_false, hid, hp, count_node]
        exact hrun
      · have hsucc := countLeft_succ child ⟨n - 1, hn⟩
        rw [Nat.sub_add_cancel hne.1, countLeft_all (q := p)] at hsucc
        omega

/-! ### Stepping -/

/-- **The inner loop of `next_`**, once the leaf has no next index, steps to the
subtree right of it, or there is none. -/
theorem stepForward_lands (hS : S.Fits h b) (hl : Leads S stack T a) :
    ∀ {ref rest}, stack = ref :: rest →
      (∃ q n child i rest' a', Cursor.stepForward h rest
            = .ok (some (⟨none, some q, ((i : Fin n) : Nat)⟩ :: rest')) ∧
          Leads S (⟨none, some q, (i : Nat)⟩ :: rest') (branch q n child) a' ∧
          a' + countLeft child i = a + T.leafCount) ∨
        (Cursor.stepForward h rest = .ok none ∧ a + T.leafCount = S.leafCount) := by
  induction hl with
  | root j =>
      rintro ref rest ⟨⟩
      exact Or.inr ⟨rfl, Nat.zero_add _⟩
  | @child rest q n child a i hl j ih =>
      rintro ref rest ⟨⟩
      have hlen := (hl.fits hS).2.1
      rw [Cursor.stepForward, count_node, ok_bind, hlen]
      by_cases hi : (i : Nat) + 1 < n
      · refine Or.inl ⟨q, n, child, ⟨i + 1, hi⟩, rest, a, ?_, hl.reindex _, ?_⟩
        · rw [if_pos (show ((i : Nat) : Int) < (n : Int) - 1 by omega)]
          rfl
        · rw [countLeft_succ child i, Nat.add_assoc]
      · have hcount := countLeft_succ child i
        have hlast : (i : Nat) + 1 = n := by omega
        rw [hlast, countLeft_all (q := q)] at hcount
        have hsum : a + countLeft child i + (child i).leafCount
            = a + (branch q n child).leafCount := by omega
        rw [if_neg (show ¬ ((i : Nat) : Int) < (n : Int) - 1 by omega), hsum]
        exact ih rfl

/-! ### Searching -/

/-- **`search` goes to the leaf for the key**, at its lower bound. -/
theorem search_lands (hS : S.Fits h b) (vec : Nat → Nat) (key : Slice) (T : NodeTree) :
    ∀ {fuel : Nat} {id : Pgid} {rest : Cursor.Stack} {a : Nat},
      b.pageNode id = .ok (none, some T.ptr) → Leads S (⟨none, some T.ptr, 0⟩ :: rest) T a →
      (T.contents h).Ordered Entry.key → (T.contents h).BranchesNonempty →
      (T.contents h).size ≤ fuel →
      ∃ q rest', Cursor.search b vec key fuel h id rest
          = .ok (⟨none, some q, (Node.lowerBound (h.node q).inodes key : Nat)⟩ :: rest') ∧
        Leads S (⟨none, some q, (Node.lowerBound (h.node q).inodes key : Nat)⟩ :: rest') (leaf q)
          (a + (T.contents h).leafOf key) := by
  induction T with
  | leaf q =>
      intro fuel id rest a hid hl _ _ hfuel
      obtain ⟨k, rfl⟩ : ∃ k, fuel = k + 1 :=
        ⟨fuel - 1, by simp only [contents, MultiTree.size] at hfuel; omega⟩
      refine ⟨q, rest, ?_, hl.reindex _⟩
      have hleaf : (h.node q).isLeaf_ = true := hl.fits hS
      rw [ptr] at hid
      simp only [Cursor.search, hid, ok_bind, pure_bind, isLeaf_node, hleaf, Cursor.nsearch,
        if_true]
      rfl
  | branch p n child ih =>
      intro fuel id rest a hid hl ho hne hfuel
      rw [ptr] at hid
      obtain ⟨hbranch, hlen, hchild⟩ := hl.fits hS
      -- `searchNode` chooses the child of the route
      obtain ⟨c, hsearch, hroutes⟩ := Cursor.searchNode_eq (map_inodes hlen) ho.1 hne.1 key
      have hlt := size_child_lt n (fun i : Fin n => (inodeAt (h.node p) i).key)
        (fun i => (child i).contents h) c
      simp only [contents] at hfuel
      obtain ⟨k, rfl⟩ : ∃ k, fuel = k + 1 := ⟨fuel - 1, by omega⟩
      obtain ⟨q, rest', hrun, hl'⟩ := ih c (hchild c).1 (.child (hl.reindex (c : Nat)) 0)
        (ho.2.1 c) (hne.2 c) (Nat.lt_succ_iff.mp (hlt.trans_le hfuel))
      refine ⟨q, rest', ?_, ?_⟩
      · simp only [Cursor.search, hid, ok_bind, isLeaf_node, hbranch,
          Bool.false_eq_true, if_false, hsearch]
        exact hrun
      · rw [contents, leafOf_branch _ hroutes, leavesLeft_contents, ← Nat.add_assoc]
        exact hl'

end NodeTree

end BoltCpp
