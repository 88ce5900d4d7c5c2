/-
BoltCpp/Node.lean

In-memory nodes (`node.h`, `node.cpp`): lookup, insertion and deletion of
inodes, the serialised size, and the translation to and from pages.

`std::exit` and failed assertions are faults; otherwise a function returns
the new node, or the new memory for `write`.

The keys and values are the bytes that the slices refer to while the function
runs.  The slices themselves, which refer into the page after `read`, are in
`BoltCpp.SliceRef`, which says when the two are the same.
-/
import BoltCpp.Page
import BoltCpp.Lib.Bisect

namespace BoltCpp

open ByteMem

/-- `INode`.  `INode()` and the fields `read` leaves unset are the defaults. -/
structure INode where
  flags : UInt32 := 0
  id : Pgid := 0
  key : Slice := []
  value : Slice := []
  deriving DecidableEq, Repr

/-- The part of an inode that a leaf uses. -/
def INode.entry (x : INode) : Entry := ⟨x.flags, x.key, x.value⟩

/-- `Node`, without the fields that only `spill` and `rebalance` would use. -/
structure Node where
  isLeaf_ : Bool
  unbalanced_ : Bool
  key_ : Slice
  id_ : Pgid
  parent_ : Option NodePtr
  inodes : List INode
  deriving DecidableEq, Repr

namespace Node

/-! ### Lookup and update -/

def numChildren (n : Node) : Int := n.inodes.length

/-- `std::lower_bound(inodes.begin(), inodes.end(), key) - inodes.begin()` -/
def lowerBound (inodes : List INode) (key : Slice) : Nat :=
  Bisect.lowerBound (fun x => Slice.lt x.key key) inodes

/-- `numChildren() > 0 && first != inodes.end() && (*first) == key` -/
def exact (n : Node) (key : Slice) : Bool :=
  decide (n.numChildren > 0) &&
    match n.inodes[lowerBound n.inodes key]? with
    | some x => Slice.beq x.key key
    | none => false

/-- `get`: the return code and the string behind `value` afterwards. -/
def get (n : Node) (key : Slice) (value : Option Slice) : Except Fault (Int × Option Slice) :=
  match value with
  | none => throw (.exit " value is null\n")
  | some _ =>
      if n.exact key then do
        let inode ← vecAt n.inodes (lowerBound n.inodes key)
        pure (0, some inode.value)
      else pure (-1, value)

/-- `put`; `pgid` is the high-water mark of the transaction's meta, if it
has a meta. -/
def put (n : Node) (pgid : Option Pgid) (oldKey newKey value : Slice) (id : Pgid)
    (flags : UInt32) : Except Fault Node :=
  match pgid with
  | none => throw (.exit "meta is null\n")
  | some pgid =>
      if id ≥ pgid then
        throw (.exit s!"pgid ({id}) above high water mark ({pgid})")
      else if oldKey.length = 0 then throw (.exit "put: zero-length old key\n")
      else if newKey.length = 0 then throw (.exit "put: zero-length new key\n")
      else
        let index := lowerBound n.inodes oldKey
        let inodes := if n.exact oldKey then n.inodes else n.inodes.insertIdx index {}
        let inode : INode := { flags := flags, key := newKey, value := value, id := id }
        let inodes := inodes.set index inode
        if inode.key.length = 0 then throw (.exit "put: zero-length inode key\n")
        else pure { n with inodes := inodes }

def del (n : Node) (key : Slice) : Except Fault Node :=
  if key.length = 0 then throw (.exit "del: zero-length key\n")
  else if n.exact key then
    pure { n with inodes := n.inodes.eraseIdx (lowerBound n.inodes key), unbalanced_ := true }
  else pure n

/-! ### Size -/

def pageElementSize (n : Node) : Int :=
  if n.isLeaf_ then leafPageElementSize else branchPageElementSize

/-- `sz` is an `int`; each `+=` narrows a `size_t` sum back to it. -/
def size (n : Node) : Int :=
  n.inodes.foldl
    (fun sz inode => toInt32 (sz + (n.pageElementSize + inode.key.length + inode.value.length)))
    pageHeaderSize

def sizeLessThan (n : Node) (v : Int) : Bool := decide (n.size < v)

/-! ### Writing a page -/

/-- The stores to `elem` in the leaf arm of `write`; `b` is the write
pointer. -/
def writeLeafElement (m : Mem) (elem b : Nat) (n : INode) : Mem :=
  let m := m.store elem 4 n.flags.toNat
  let m := m.store (elem + 8) 4 (toUInt32 n.key.length).toNat
  let m := m.store (elem + 12) 4 (toUInt32 n.value.length).toNat
  m.store (elem + 4) 4 (toUInt32 ((b : Int) - elem)).toNat

/-- The stores to `elem` in the branch arm of `write`. -/
def writeBranchElement (m : Mem) (elem b : Nat) (n : INode) : Mem :=
  let m := m.store (elem + 4) 4 (toUInt32 n.key.length).toNat
  let m := m.store (elem + 8) 8 n.id.toNat
  m.store elem 4 (toUInt32 ((b : Int) - elem)).toNat

/-- The loop of `write`, from inode `i` on with the write pointer at `b`. -/
def writeLoop (isLeaf : Bool) (p : Nat) : List INode → Nat → Nat → Mem → Except Fault Mem
  | [], _, _, m => pure m
  | n :: rest, i, b, m => do
      let m ←
        if isLeaf then
          pure (writeLeafElement m (Page.leafPageElement m p (toUInt16 i)) b n)
        else
          let elem := Page.branchPageElement m p (toUInt16 i)
          let m := writeBranchElement m elem b n
          if BranchPageElement.id m elem ≠ Page.id m p then
            throw (.exit "write: circular dependency occured\n")
          else pure m
      let m := m.write b n.key
      let b := b + n.key.length
      let m := m.write b n.value
      writeLoop isLeaf p rest (i + 1) (b + n.value.length) m

def write (n : Node) (m : Mem) (p : Nat) : Except Fault Mem :=
  let m := Page.setFlags m p (if n.isLeaf_ then LeafPageFlag else BranchPageFlag)
  if n.inodes.length > 0xffff then
    throw (.exit s!"page's count is overflow: pgid = {Page.id m p}")
  else
    let m := Page.unsetOverflow m p
    let m := Page.setCount m p (toUInt32 n.inodes.length)
    if Page.count m p = 0 then pure m
    else
      let b := Page.ptr m p + n.inodes.length * n.pageElementSize.toNat
      writeLoop n.isLeaf_ p n.inodes 0 b m

/-! ### Reading a page -/

/-- One iteration of the loop of `read`.  The branch arm fills a second
`INode` that shadows the first one. -/
def readInode (m : Mem) (p : Nat) (isLeaf : Bool) (i : Nat) : Except Fault INode :=
  let inode : INode := {}
  let inode :=
    if isLeaf then
      let elem := Page.leafPageElement m p (toUInt16 i)
      { inode with
        flags := LeafPageElement.flags m elem
        key := LeafPageElement.key m elem
        value := LeafPageElement.value m elem }
    else
      let elem := Page.branchPageElement m p (toUInt16 i)
      let _inode : INode :=
        { id := BranchPageElement.id m elem, key := BranchPageElement.key m elem }
      inode
  if inode.key.length = 0 then throw (.exit "read: zero-length inode key\n")
  else pure inode

def read (n : Node) (m : Mem) (p : Nat) : Except Fault Node := do
  let isLeaf := decide (Page.flags m p &&& LeafPageFlag ≠ 0)
  let inodes ← (List.range (Page.count m p).toNat).mapM (readInode m p isLeaf)
  let n := { n with id_ := Page.id m p, isLeaf_ := isLeaf, inodes := inodes }
  match inodes with
  | [] => pure n
  | first :: _ =>
      if first.key.length > 0 then pure { n with key_ := first.key }
      else throw (.assertion "key_.size() > 0")

end Node

end BoltCpp
