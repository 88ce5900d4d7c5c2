/-
BoltCpp/Bucket.lean

From a page id to a page or a node: `DB::page`, `Tx::page` and
`Bucket::page_node` (`db.cpp`, `tx.cpp`, `bucket.cpp`).

A pointer that may be null is an `Option`.  Pages live in memory at their
address; nodes are looked up by the address of the object.
-/
import BoltCpp.Node

namespace BoltCpp

open ByteMem

/-- What pointers point to. -/
structure Heap where
  mem : Mem
  node : NodePtr → Node

/-- The heap with another node at `q`. -/
def Heap.setNode (h : Heap) (q : NodePtr) (nd : Node) : Heap :=
  { h with node := Function.update h.node q nd }

section

variable {h : Heap} {q r : NodePtr} {nd : Node}

@[simp] theorem Heap.setNode_mem : (h.setNode q nd).mem = h.mem := rfl

@[simp] theorem Heap.setNode_node_self : (h.setNode q nd).node q = nd :=
  Function.update_self _ _ _

theorem Heap.setNode_node_of_ne (hne : r ≠ q) : (h.setNode q nd).node r = h.node r :=
  Function.update_of_ne hne _ _

end

/-- The mapped file of `DB`. -/
structure DB where
  data_ : Nat
  pageSize_ : Int

/-- `int pos = id * pageSize_`: the product is a 64-bit unsigned number, and
`pos` keeps its low 32 bits. -/
def DB.page (db : DB) (id : Pgid) : Nat :=
  (db.data_ + toInt32 ((id.toNat * db.pageSize_) % 2 ^ 64)).toNat

/-- `Tx`: its database, until it is closed, and its dirty pages. -/
structure Tx where
  db_ : Option DB
  pages_ : Pgid → Option Nat

def Tx.page (tx : Tx) (id : Pgid) : Except Fault Nat :=
  match tx.pages_ id with
  | some p => pure p
  | none =>
      match tx.db_ with
      | some db => pure (db.page id)
      | none => throw .nullDeref

/-- `Bucket`; `page` and `rootNode` are used by inline buckets only. -/
structure Bucket where
  root : Pgid
  tx_ : Tx
  page : Option Nat
  rootNode : Option NodePtr
  nodes : Pgid → Option NodePtr

namespace Bucket

/-- A page, or the node that has taken its place. -/
abbrev PageNode := Option Nat × Option NodePtr

def inline_ (b : Bucket) : Bool := decide (b.root = 0)

def pageNode (b : Bucket) (id : Pgid) : Except Fault PageNode :=
  if b.inline_ then
    if id ≠ 0 then
      throw (.exit s!"inline bucket non-zero page access(2): {id} != 0\n")
    else
      match b.rootNode with
      | some n => pure (none, some n)
      | none => pure (b.page, none)
  else
    match b.nodes id with
    | some n => pure (none, some n)
    | none => do
        let p ← b.tx_.page id
        pure (some p, none)

/-- The bucket once the node of page `id` is in `nodes_`. -/
def withNode (b : Bucket) (id : Pgid) (q : NodePtr) : Bucket :=
  { b with nodes := Function.update b.nodes id (some q) }

theorem pageNode_withNode {b : Bucket} (hin : b.inline_ = false) (id : Pgid) (q : NodePtr)
    (id' : Pgid) :
    (b.withNode id q).pageNode id' = if id' = id then .ok (none, some q) else b.pageNode id' := by
  have hroot : b.root ≠ 0 := by simpa [inline_] using hin
  by_cases heq : id' = id
  · subst heq
    rw [if_pos rfl]
    simp [pageNode, inline_, withNode, hroot]
    rfl
  · rw [if_neg heq]
    simp [pageNode, inline_, withNode, hroot, heq]

/-- Outside inline buckets nodes come from `nodes_`. -/
theorem pageNode_fresh {b : Bucket} (hin : b.inline_ = false) {q : NodePtr}
    (hfresh : ∀ id, b.nodes id ≠ some q) {id : Pgid} {s : PageNode}
    (hp : b.pageNode id = .ok s) : s.2 ≠ some q := by
  rw [pageNode, hin] at hp
  simp only [Bool.false_eq_true, if_false] at hp
  rcases hnode : b.nodes id with - | n
  · rw [hnode] at hp
    obtain ⟨p, -, hp⟩ := ok_of_bind hp
    cases hp
    exact fun h => by cases h
  · rw [hnode] at hp
    cases hp
    exact fun h => hfresh id (hnode.trans h)

/-- Where there is a node, there is no page. -/
theorem pageNode_node {b : Bucket} {id : Pgid} {p : Option Nat} {n : NodePtr}
    (hid : b.pageNode id = .ok (p, some n)) : p = none := by
  rw [pageNode] at hid
  split at hid
  · split at hid
    · cases hid
    · split at hid <;> cases hid
      rfl
  · split at hid
    · cases hid
      rfl
    · rcases hpage : b.tx_.page id with e | q <;> rw [hpage] at hid <;> cases hid

end Bucket

end BoltCpp
