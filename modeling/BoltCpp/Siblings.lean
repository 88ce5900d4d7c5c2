/-
BoltCpp/Siblings.lean

Parents and children in memory (`node.cpp`): `childAt`, `childIndex`,
`nextSibling` and `prevSibling`.

A node finds its place among the inodes of its parent by its key.  Where the
keys ascend, that place is the index it is the child at (`childIndex_nthChild`),
so the siblings of a child are the children before and behind it, and going
from one to the next visits them all (`siblings_enumerate`).

`Bucket::node` is a stub.  `materialise` stands for it: the node of a page,
given its id and its parent.
-/
import BoltCpp.Bucket
import BoltCpp.NodeMap
import BoltCpp.Lib.Walk

namespace BoltCpp

open KeyedList Walk

namespace Node

/-- `childIndex` -/
def childIndex (n child : Node) : Int :=
  let first := lowerBound n.inodes child.key_
  match n.inodes[first]? with
  | none => -1
  | some x => if Slice.beq x.key child.key_ then first else -1

section

variable (h : Heap) (materialise : Pgid → Option NodePtr → Option NodePtr)

/-- `childAt` -/
def childAt (n : NodePtr) (index : Int) : Except Fault (Option NodePtr) :=
  if (h.node n).isLeaf_ then throw (.exit s!"invalid childAt({index}) on a leaf node")
  else do
    let inode ← vecAt (h.node n).inodes index
    pure (materialise inode.id (some n))

def nextSibling (n : NodePtr) : Except Fault (Option NodePtr) :=
  match (h.node n).parent_ with
  | none => pure none
  | some parent =>
      let index := (h.node parent).childIndex (h.node n)
      if index < 0 ∨ index ≥ (h.node parent).numChildren - 1 then pure none
      else childAt h materialise parent (index + 1)

def prevSibling (n : NodePtr) : Except Fault (Option NodePtr) :=
  match (h.node n).parent_ with
  | none => pure none
  | some parent =>
      let index := (h.node parent).childIndex (h.node n)
      if index ≤ 0 then pure none
      else childAt h materialise parent (index - 1)

/-! ### Parents -/

/-- `parent` is a branch node with its keys in order, and its children know it
and their keys.  (So the child ids are distinct.) -/
structure IsParent (parent : NodePtr) : Prop where
  isLeaf : (h.node parent).isLeaf_ = false
  sorted : Sorted INode.key (h.node parent).inodes
  child : ∀ x ∈ (h.node parent).inodes, ∃ c, materialise x.id (some parent) = some c ∧
    (h.node c).parent_ = some parent ∧ (h.node c).key_ = x.key

/-- The child at index `i`. -/
def nthChild (parent : NodePtr) (i : Nat) : Option NodePtr :=
  (h.node parent).inodes[i]?.bind fun x => materialise x.id (some parent)

end

variable {h : Heap} {materialise : Pgid → Option NodePtr → Option NodePtr}
  {parent n c c' : NodePtr} {i : Nat}

/-- A child, and the inode it belongs to. -/
theorem IsParent.of_nthChild (hp : IsParent h materialise parent)
    (hc : nthChild h materialise parent i = some c) :
    ∃ x, (h.node parent).inodes[i]? = some x ∧ (h.node c).parent_ = some parent ∧
      (h.node c).key_ = x.key := by
  obtain ⟨x, hx, hmat⟩ := Option.bind_eq_some_iff.mp hc
  obtain ⟨c', hc', hparent, hkey⟩ := hp.child x (List.mem_of_getElem? hx)
  obtain rfl := Option.some.inj (hmat.symm.trans hc')
  exact ⟨x, hx, hparent, hkey⟩

/-- There is a child at every index. -/
theorem IsParent.isSome_nthChild_iff (hp : IsParent h materialise parent) (i : Nat) :
    (nthChild h materialise parent i).isSome = true ↔ i < (h.node parent).inodes.length := by
  rcases hx : (h.node parent).inodes[i]? with - | x
  · rw [nthChild, hx]
    simpa using hx
  · obtain ⟨c, hc, -⟩ := hp.child x (List.mem_of_getElem? hx)
    rw [nthChild, hx, Option.bind_some, hc]
    simpa using (List.getElem?_eq_some_iff.mp hx).1

/-- **`childIndex` inverts `childAt`.** -/
theorem IsParent.childIndex_nthChild (hp : IsParent h materialise parent)
    (hc : nthChild h materialise parent i = some c) :
    (h.node parent).childIndex (h.node c) = i := by
  obtain ⟨x, hx, -, hkey⟩ := hp.of_nthChild hc
  have hfirst : lowerBound (h.node parent).inodes (h.node c).key_ = i := by
    rw [lowerBound_eq, hkey]
    exact hp.sorted.lowerBound_of_getElem? hx
  have heq : Slice.beq x.key (h.node c).key_ = true := (Slice.beq_iff _ _).mpr hkey.symm
  simp only [childIndex, hfirst, hx, heq, if_true]

/-- A key that is not there. -/
theorem childIndex_of_not_mem {n child : Node} (h : ∀ x ∈ n.inodes, x.key ≠ child.key_) :
    n.childIndex child = -1 := by
  rw [childIndex]
  split
  · rfl
  · rename_i x hx
    rw [if_neg]
    rw [Slice.beq_iff]
    exact h x (List.mem_of_getElem? hx)

theorem IsParent.childAt_eq (hp : IsParent h materialise parent)
    (hi : i < (h.node parent).inodes.length) :
    childAt h materialise parent (i : Int) = .ok (nthChild h materialise parent i) := by
  have hx := List.getElem?_eq_getElem hi
  rw [childAt, hp.isLeaf, vecAt_ofNat hx, nthChild, hx]
  rfl

/-! ### Siblings -/

/-- **`nextSibling` is the child behind.** -/
theorem IsParent.nextSibling_nthChild (hp : IsParent h materialise parent)
    (hc : nthChild h materialise parent i = some c) :
    nextSibling h materialise c = .ok (nthChild h materialise parent (i + 1)) := by
  obtain ⟨x, hx, hparent, -⟩ := hp.of_nthChild hc
  have hi := (List.getElem?_eq_some_iff.mp hx).1
  simp only [nextSibling, hparent, hp.childIndex_nthChild hc, numChildren]
  by_cases hlast : i + 1 < (h.node parent).inodes.length
  · rw [if_neg (by omega)]
    exact hp.childAt_eq hlast
  · rw [if_pos (by omega), nthChild, List.getElem?_eq_none (Nat.le_of_not_lt hlast)]
    rfl

/-- **`prevSibling` is the child before.** -/
theorem IsParent.prevSibling_nthChild (hp : IsParent h materialise parent)
    (hc : nthChild h materialise parent i = some c) :
    prevSibling h materialise c
      = .ok (if i = 0 then none else nthChild h materialise parent (i - 1)) := by
  obtain ⟨x, hx, hparent, -⟩ := hp.of_nthChild hc
  have hi := (List.getElem?_eq_some_iff.mp hx).1
  simp only [prevSibling, hparent, hp.childIndex_nthChild hc]
  cases i with
  | zero => rfl
  | succ i =>
      rw [if_neg (by omega), if_neg (Nat.succ_ne_zero i), Nat.add_sub_cancel,
        Int.natCast_succ, Int.add_sub_cancel]
      exact hp.childAt_eq (Nat.lt_of_succ_lt hi)

/-- A stranger has no siblings. -/
theorem siblings_of_not_mem (hparent : (h.node n).parent_ = some parent)
    (hkey : ∀ x ∈ (h.node parent).inodes, x.key ≠ (h.node n).key_) :
    nextSibling h materialise n = .ok none ∧ prevSibling h materialise n = .ok none := by
  have hindex := childIndex_of_not_mem hkey
  simp only [nextSibling, prevSibling, hparent, hindex]
  exact ⟨rfl, rfl⟩

/-! ### All children -/

/-- The children of a parent, in order. -/
theorem IsParent.exists_children (hp : IsParent h materialise parent) :
    ∃ cs : List NodePtr, (∀ i, cs[i]? = nthChild h materialise parent i) ∧
      cs.map (fun c => (h.node c).key_) = (h.node parent).inodes.map INode.key := by
  have hall : ∀ xs : List INode, (∀ x ∈ xs, x ∈ (h.node parent).inodes) →
      ∃ cs : List NodePtr, (∀ i : Nat, cs[i]? = xs[i]?.bind fun x =>
          materialise x.id (some parent)) ∧
        cs.map (fun c => (h.node c).key_) = xs.map INode.key := by
    intro xs
    induction xs with
    | nil => exact fun _ => ⟨[], fun _ => rfl, rfl⟩
    | cons x xs ih =>
        intro hmem
        obtain ⟨hx, hxs⟩ := List.forall_mem_cons.mp hmem
        obtain ⟨c, hc, -, hkey⟩ := hp.child x hx
        obtain ⟨cs, hget, hkeys⟩ := ih hxs
        refine ⟨c :: cs, fun i => ?_, by rw [List.map_cons, List.map_cons, hkey, hkeys]⟩
        cases i with
        | zero => exact hc.symm
        | succ i => exact hget i
  exact hall _ fun _ hx => hx

/-- Going on and back again. -/
theorem IsParent.prev_of_next (hp : IsParent h materialise parent)
    (hc : nthChild h materialise parent i = some c)
    (hnext : nextSibling h materialise c = .ok (some c')) :
    prevSibling h materialise c' = .ok (some c) := by
  rw [hp.nextSibling_nthChild hc] at hnext
  have hprev := hp.prevSibling_nthChild (Except.ok.inj hnext)
  rwa [if_neg (Nat.succ_ne_zero i), Nat.add_sub_cancel, hc] at hprev

/-- Going back and on again. -/
theorem IsParent.next_of_prev (hp : IsParent h materialise parent)
    (hc : nthChild h materialise parent i = some c)
    (hprev : prevSibling h materialise c = .ok (some c')) :
    nextSibling h materialise c' = .ok (some c) := by
  rw [hp.prevSibling_nthChild hc] at hprev
  cases i with
  | zero => cases hprev
  | succ i =>
      have hnext := hp.nextSibling_nthChild (i := i) (Except.ok.inj hprev)
      rwa [hc] at hnext

/-- **All children, one after the other.** -/
theorem IsParent.walk_children (hp : IsParent h materialise parent)
    (hc : nthChild h materialise parent 0 = some c) {fuel : Nat}
    (hfuel : (h.node parent).inodes.length ≤ fuel) :
    ∃ cs, walk .outOfFuel (nextSibling h materialise) fuel c = .ok cs ∧
      (∀ i, cs[i]? = nthChild h materialise parent i) ∧ cs.Nodup ∧
      cs.Pairwise fun c c' => (h.node c).key_ < (h.node c').key_ := by
  obtain ⟨cs, hget, hkeys⟩ := hp.exists_children
  have hsorted : cs.Pairwise fun c c' => (h.node c).key_ < (h.node c').key_ := by
    have hkeysorted := List.pairwise_map.mpr hp.sorted
    rw [← hkeys] at hkeysorted
    exact List.pairwise_map.mp hkeysorted
  have hfollows : Follows (nextSibling h materialise) cs := by
    intro i c hi
    rw [hget] at hi ⊢
    exact hp.nextSibling_nthChild hi
  have hlen : cs.length = (h.node parent).inodes.length := by
    simpa using congrArg List.length hkeys
  refine ⟨cs, ?_, hget, hsorted.imp fun hlt heq => absurd (heq ▸ hlt) (lt_irrefl _), hsorted⟩
  cases cs with
  | nil =>
      rw [← hget] at hc
      cases hc
  | cons c' cs =>
      obtain rfl : c' = c := Option.some.inj ((hget 0).trans hc)
      rw [List.length_cons] at hlen
      exact walk_eq hfollows (by omega)

/-- **Sibling navigation enumerates the children of a parent.**  From the child
at an index it goes to the children at the next indices, and null is past
either end; each direction undoes the other; and `nextSibling` from the first
child on visits every child once, by ascending key, and then ends.  A node
whose key the parent does not have has no siblings. -/
theorem siblings_enumerate (hp : IsParent h materialise parent) :
    (∀ i c, nthChild h materialise parent i = some c →
      nextSibling h materialise c
          = .ok (if i + 1 = (h.node parent).inodes.length then none
              else nthChild h materialise parent (i + 1)) ∧
        prevSibling h materialise c
          = .ok (if i = 0 then none else nthChild h materialise parent (i - 1))) ∧
    (∀ i, (nthChild h materialise parent i).isSome = true ↔
      i < (h.node parent).inodes.length) ∧
    (∀ i c c', nthChild h materialise parent i = some c →
      (nextSibling h materialise c = .ok (some c') →
        prevSibling h materialise c' = .ok (some c)) ∧
      (prevSibling h materialise c = .ok (some c') →
        nextSibling h materialise c' = .ok (some c))) ∧
    (∀ c fuel, nthChild h materialise parent 0 = some c →
      (h.node parent).inodes.length ≤ fuel →
      ∃ cs, walk .outOfFuel (nextSibling h materialise) fuel c = .ok cs ∧
        (∀ i, cs[i]? = nthChild h materialise parent i) ∧ cs.Nodup ∧
        cs.Pairwise fun c c' => (h.node c).key_ < (h.node c').key_) ∧
    ∀ n, (h.node n).parent_ = some parent →
      (∀ x ∈ (h.node parent).inodes, x.key ≠ (h.node n).key_) →
      nextSibling h materialise n = .ok none ∧ prevSibling h materialise n = .ok none := by
  refine ⟨fun i c hc => ⟨?_, hp.prevSibling_nthChild hc⟩, hp.isSome_nthChild_iff,
    fun i c c' hc => ⟨hp.prev_of_next hc, hp.next_of_prev hc⟩,
    fun c fuel hc hfuel => hp.walk_children hc hfuel,
    fun n hparent hkey => siblings_of_not_mem hparent hkey⟩
  rw [hp.nextSibling_nthChild hc]
  split
  · rename_i hlast
    have hnone := mt (hp.isSome_nthChild_iff (i + 1)).mp (by omega)
    rw [Option.not_isSome_iff_eq_none.mp hnone]
  · rfl

/-- Node 1 is a branch node with three children, each at the address that is
its page id. -/
def familyHeap : Heap where
  mem := fun _ => 0
  node n :=
    if n = 1 then
      ⟨false, false, [], 2, none,
        [{ id := 5, key := [97] }, { id := 3, key := [98] }, { id := 4, key := [99] }]⟩
    else if n = 5 then ⟨true, false, [97], 5, some 1, []⟩
    else if n = 3 then ⟨true, false, [98], 3, some 1, []⟩
    else ⟨true, false, [99], 4, some 1, []⟩

/-- The nodes are found where they are. -/
def cached (id : Pgid) (_parent : Option NodePtr) : Option NodePtr := some id.toNat

theorem isParent_family : IsParent familyHeap cached 1 where
  isLeaf := rfl
  sorted := by
    show List.Pairwise _ _
    decide
  child x hx := by
    have hmem : x ∈ [({ id := 5, key := [97] } : INode), { id := 3, key := [98] },
        { id := 4, key := [99] }] := hx
    simp only [List.mem_cons, List.not_mem_nil, or_false] at hmem
    rcases hmem with rfl | rfl | rfl
    · exact ⟨5, rfl, rfl, rfl⟩
    · exact ⟨3, rfl, rfl, rfl⟩
    · exact ⟨4, rfl, rfl, rfl⟩

theorem siblings_enumerate_sample :
    nextSibling familyHeap cached 3 = .ok (some 4) ∧
      prevSibling familyHeap cached 3 = .ok (some 5) ∧
      walk .outOfFuel (nextSibling familyHeap cached) 3 5 = .ok [5, 3, 4] := by
  obtain ⟨hsiblings, -, -, hwalk, -⟩ := siblings_enumerate isParent_family
  obtain ⟨hnext, hprev⟩ := hsiblings 1 3 rfl
  obtain ⟨cs, hcs, hget, -, -⟩ := hwalk 5 3 rfl (by decide)
  refine ⟨hnext, hprev, hcs.trans (congrArg Except.ok (List.ext_getElem? fun i => ?_))⟩
  rw [hget]
  rcases i with - | - | - | i <;> rfl

end Node

end BoltCpp
