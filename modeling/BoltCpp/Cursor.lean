/-
BoltCpp/Cursor.lean

The cursor (`cursor.h`, `cursor.cpp`): `first`, `last`, `next`, `prev` and
`seek` over the tree of pages and nodes of a bucket.

A cursor is its stack of element references.  The list has `back()` first.
The endless loops of `first_`, `last_` and `next_` and the recursion of
`search` take fuel.  Searching a page copies its elements into a vector;
`vec` gives the address of that vector, by the height of the stack.
-/
import BoltCpp.Bucket

namespace BoltCpp

open ByteMem

/-- `elemRef` -/
structure ElemRef where
  page : Option Nat
  node : Option NodePtr
  index : Int
  deriving DecidableEq, Repr

namespace ElemRef

def isLeaf (h : Heap) (ref : ElemRef) : Except Fault Bool :=
  match ref.node with
  | some n => pure (h.node n).isLeaf_
  | none =>
      match ref.page with
      | some p => pure (decide (Page.flags h.mem p &&& LeafPageFlag ≠ 0))
      | none => throw .nullDeref

def count (h : Heap) (ref : ElemRef) : Except Fault Int :=
  match ref.node with
  | some n => pure (h.node n).numChildren
  | none =>
      match ref.page with
      | some p => pure (toInt32 (Page.count h.mem p).toNat)
      | none => throw .nullDeref

/-- The id of the child at `index`. -/
def childId (h : Heap) (ref : ElemRef) : Except Fault Pgid :=
  match ref.node with
  | some n => do
      let inode ← vecAt (h.node n).inodes ref.index
      pure inode.id
  | none =>
      match ref.page with
      | some p =>
          pure (BranchPageElement.id h.mem
            (Page.branchPageElement h.mem p (toUInt16 ref.index)))
      | none => throw .nullDeref

end ElemRef

/-- Key, value and flags, as the private functions return them. -/
abbrev KeyValue := Option Slice × Option Slice × UInt32

/-- Key and value, as the public functions return them. -/
abbrev Pair := Option Slice × Option Slice

namespace Cursor

/-- `stack_`, the last reference first. -/
abbrev Stack := List ElemRef

/-- The value of a nested bucket is nil. -/
def toPair : KeyValue → Pair
  | (k, v, flags) => if flags &&& BucketLeafFlag ≠ 0 then (k, none) else (k, v)

/-- `stack_.back()` -/
def back (stack : Stack) : Except Fault ElemRef :=
  match stack with
  | ref :: _ => pure ref
  | [] => throw .emptyBack

/-- `assert(bucket_->tx()->db() != nullptr)` -/
def assertOpen (b : Bucket) : Except Fault Unit :=
  if b.tx_.db_.isSome then pure ()
  else throw (.assertion "this->bucket_->tx()->db() != nullptr")

section

variable (h : Heap) (b : Bucket)

def keyValue (stack : Stack) : Except Fault KeyValue := do
  let ref ← back stack
  let count ← ref.count h
  if count = 0 ∨ ref.index ≥ count then pure (none, none, 0)
  else
    match ref.node with
    | some n => do
        let inode ← vecAt (h.node n).inodes ref.index
        pure (some inode.key, some inode.value, inode.flags)
    | none =>
        match ref.page with
        | some p =>
            let elem := Page.leafPageElement h.mem p (toUInt16 ref.index)
            pure (some (LeafPageElement.key h.mem elem),
              some (LeafPageElement.value h.mem elem), LeafPageElement.flags h.mem elem)
        | none => throw .nullDeref

/-! ### Descending -/

def first_ : Nat → Stack → Except Fault Stack
  | 0, _ => throw .outOfFuel
  | fuel + 1, stack => do
      let ref ← back stack
      if ← ref.isLeaf h then pure stack
      else
        let id ← ref.childId h
        let (p, n) ← b.pageNode id
        first_ fuel ({ page := p, node := n, index := 0 } :: stack)

def last_ : Nat → Stack → Except Fault Stack
  | 0, _ => throw .outOfFuel
  | fuel + 1, stack => do
      let ref ← back stack
      if ← ref.isLeaf h then pure stack
      else
        let id ← ref.childId h
        let (p, n) ← b.pageNode id
        let elem : ElemRef := { page := p, node := n, index := 0 }
        let count ← elem.count h
        last_ fuel ({ elem with index := count - 1 } :: stack)

/-! ### Stepping -/

/-- The inner loop of `next_`, from `rbegin()`: the stack from the first
reference on that has a next index, or nothing if there is none. -/
def stepForward : Stack → Except Fault (Option Stack)
  | [] => pure none
  | ref :: rest => do
      let count ← ref.count h
      if ref.index < count - 1 then pure (some ({ ref with index := ref.index + 1 } :: rest))
      else stepForward rest

/-- The outer loop of `next_`.  Every restart and every descent may take
`fuel` steps. -/
def nextLoop (fuel : Nat) : Nat → Stack → Except Fault (Stack × KeyValue)
  | 0, _ => throw .outOfFuel
  | restarts + 1, stack => do
      match ← stepForward h stack with
      | none => pure (stack, none, none, 0)
      | some stack =>
          let stack ← first_ h b fuel stack
          let ref ← back stack
          let count ← ref.count h
          if count = 0 then nextLoop fuel restarts stack
          else
            let kv ← keyValue h stack
            pure (stack, kv)

def next_ (fuel : Nat) (stack : Stack) : Except Fault (Stack × KeyValue) :=
  if stack.length > 0 then nextLoop h b fuel fuel stack
  else throw (.assertion "this->stack_.size() > 0")

/-- The loop of `prev`: step back the first reference with a positive index,
dropping those above it. -/
def stepBack : Stack → Stack
  | [] => []
  | ref :: rest =>
      if ref.index > 0 then { ref with index := ref.index - 1 } :: rest else stepBack rest

/-! ### The public functions -/

def first (fuel : Nat) (_stack : Stack) : Except Fault (Stack × Pair) := do
  assertOpen b
  let (p, n) ← b.pageNode b.root
  let stack ← first_ h b fuel [{ page := p, node := n, index := 0 }]
  let ref ← back stack
  let count ← ref.count h
  let stack ←
    if count = 0 then do
      let (stack, _) ← next_ h b fuel stack
      pure stack
    else pure stack
  let kv ← keyValue h stack
  pure (stack, toPair kv)

def next (fuel : Nat) (stack : Stack) : Except Fault (Stack × Pair) := do
  assertOpen b
  let (stack, kv) ← next_ h b fuel stack
  pure (stack, toPair kv)

def last (fuel : Nat) (_stack : Stack) : Except Fault (Stack × Pair) := do
  assertOpen b
  let (p, n) ← b.pageNode b.root
  let elem : ElemRef := { page := p, node := n, index := 0 }
  let count ← elem.count h
  let stack ← last_ h b fuel [{ elem with index := count - 1 }]
  let kv ← keyValue h stack
  pure (stack, toPair kv)

/-- `prev` goes on with the public `last`, which starts again at the root. -/
def prev (fuel : Nat) (stack : Stack) : Except Fault (Stack × Pair) := do
  assertOpen b
  let stack := stepBack stack
  if stack.length = 0 then pure (stack, none, none)
  else
    let (stack, _) ← last h b fuel stack
    let kv ← keyValue h stack
    pure (stack, toPair kv)

end

/-! ### Searching -/

/-- The child to descend into: unless the key was found, `index` steps back
to the separator below it. -/
def childIndex (index : Nat) (exact : Bool) : Nat :=
  if !exact && decide (index > 0) then index - 1 else index

/-- `searchNode` up to the recursive call: index and id of the child. -/
def searchNode (n : Node) (key : Slice) : Except Fault (Nat × Pgid) := do
  let first := Node.lowerBound n.inodes key
  let exact := (n.inodes[first]?).any fun x => Slice.beq x.key key
  let index := childIndex first exact
  let inode ← vecAt n.inodes index
  pure (index, inode.id)

/-- `searchPage` up to the recursive call, in the memory that holds the
copied elements. -/
def searchPage (m : Mem) (p vec : Nat) (key : Slice) : Except Fault (Nat × Pgid) := do
  let (m, inodes) := Page.branchPageElements m p vec
  let first := Bisect.lowerBound (fun e => Slice.lt (BranchPageElement.key m e) key) inodes
  let exact := (inodes[first]?).any fun e => Slice.beq (BranchPageElement.key m e) key
  let index := childIndex first exact
  let elem ← vecAt inodes index
  pure (index, BranchPageElement.id m elem)

/-- `nsearch`: the new index of the reference on top of the stack. -/
def nsearch (h : Heap) (ref : ElemRef) (vec : Nat) (key : Slice) : Except Fault Nat :=
  match ref.node with
  | some n => pure (Node.lowerBound (h.node n).inodes key)
  | none =>
      match ref.page with
      | some p =>
          let (m, inodes) := Page.leafPageElements h.mem p vec
          pure (Bisect.lowerBound (fun e => Slice.lt (LeafPageElement.key m e) key) inodes)
      | none => throw .nullDeref

/-- `search`.  The vector of a branch page is alive during the recursion. -/
def search (b : Bucket) (vec : Nat → Nat) (key : Slice) :
    Nat → Heap → Pgid → Stack → Except Fault Stack
  | 0, _, _, _ => throw .outOfFuel
  | fuel + 1, h, id, stack => do
      let (p, n) ← b.pageNode id
      match p with
      | some p =>
          if Page.flags h.mem p &&& (BranchPageFlag ||| LeafPageFlag) = 0 then
            throw (.exit s!"invalid page type: {Page.id h.mem p} {Page.flags h.mem p}\n")
      | none => pure ()
      let elem : ElemRef := { page := p, node := n, index := 0 }
      if ← elem.isLeaf h then
        let index ← nsearch h elem (vec stack.length) key
        pure ({ elem with index := index } :: stack)
      else
        match n, p with
        | some n, _ => do
            let (index, child) ← searchNode (h.node n) key
            search b vec key fuel h child ({ elem with index := index } :: stack)
        | none, some p => do
            let (index, child) ← searchPage h.mem p (vec stack.length) key
            let m := (Page.branchPageElements h.mem p (vec stack.length)).1
            search b vec key fuel { h with mem := m } child ({ elem with index := index } :: stack)
        | none, none => throw .nullDeref

def seek_ (h : Heap) (b : Bucket) (vec : Nat → Nat) (fuel : Nat) (seek : Slice)
    (_stack : Stack) : Except Fault (Stack × KeyValue) := do
  assertOpen b
  let stack ← search b vec seek fuel h b.root []
  let ref ← back stack
  let count ← ref.count h
  if ref.index ≥ count then pure (stack, none, none, 0)
  else
    let kv ← keyValue h stack
    pure (stack, kv)

/-- A key that was found is answered by nil: the test of `k` in the source is
the wrong way round. -/
def seek (h : Heap) (b : Bucket) (vec : Nat → Nat) (fuel : Nat) (seek : Slice)
    (stack : Stack) : Except Fault (Stack × Pair) := do
  let (stack, kv) ← seek_ h b vec fuel seek stack
  let ref ← back stack
  let count ← ref.count h
  let (stack, kv) ← if ref.index ≥ count then next_ h b fuel stack else pure (stack, kv)
  if kv.1.isSome then pure (stack, none, none)
  else pure (stack, toPair kv)

end Cursor

end BoltCpp
