/-
BoltCpp/SliceRef.lean

Slices as they are in memory.

A `Slice` does not own its bytes, it is an address and a length.  The nodes of
`BoltCpp.Node` hold the bytes; here a node is as it is (`NodeRef`), with slices
that refer to memory: those that `read` fills in refer to the page, those that
`put` files to the caller's bytes.  `deref` follows them.

The functions of `NodeRef` are the source's once more, where a key is compared
by what it refers to at that time, and `write` copies what it finds when it
gets there.  `get`, `put`, `del` and `read` are always the functions on bytes
under `deref`; `write` is (`write_deref`) as long as it keeps off the bytes
that the node refers to (`KeepsOff`), and then the node refers to the same
bytes afterwards.
-/
import BoltCpp.NodeMap
import BoltCpp.PageFootprint

namespace BoltCpp

open ByteMem ByteMem.Mem

/-! ### The objects -/

/-- `Slice`: `data_` and `size_`. -/
structure SliceRef where
  data_ : Nat := 0
  size_ : Nat := 0
  deriving DecidableEq, Repr

namespace SliceRef

/-- What the slice refers to. -/
def bytes (s : SliceRef) (m : Mem) : Slice := m.read s.data_ s.size_

/-- The byte at `a` is one of the slice. -/
def Covers (s : SliceRef) (a : Nat) : Prop := s.data_ ≤ a ∧ a < s.data_ + s.size_

@[simp] theorem length_bytes (s : SliceRef) (m : Mem) : (s.bytes m).length = s.size_ :=
  length_read m s.data_ s.size_

theorem bytes_congr {s : SliceRef} {m m' : Mem} (h : ∀ a, s.Covers a → m' a = m a) :
    s.bytes m' = s.bytes m :=
  read_congr fun i hi => h _ ⟨Nat.le_add_right _ i, Nat.add_lt_add_left hi _⟩

end SliceRef

/-- `INode` -/
structure INodeRef where
  flags : UInt32 := 0
  id : Pgid := 0
  key : SliceRef := {}
  value : SliceRef := {}
  deriving DecidableEq, Repr

namespace INodeRef

def deref (m : Mem) (x : INodeRef) : INode := ⟨x.flags, x.id, x.key.bytes m, x.value.bytes m⟩

/-- How many bytes the inode refers to. -/
def size (x : INodeRef) : Nat := x.key.size_ + x.value.size_

def Covers (x : INodeRef) (a : Nat) : Prop := x.key.Covers a ∨ x.value.Covers a

theorem length_bytes_deref (m : Mem) (x : INodeRef) : (x.deref m).bytes.length = x.size := by
  simp [deref, INode.bytes, size]

theorem deref_congr {x : INodeRef} {m m' : Mem} (h : ∀ a, x.Covers a → m' a = m a) :
    x.deref m' = x.deref m := by
  rw [deref, deref, SliceRef.bytes_congr fun a ha => h a (Or.inl ha),
    SliceRef.bytes_congr fun a ha => h a (Or.inr ha)]

end INodeRef

/-- `Node`, without the fields that only `spill` and `rebalance` would use. -/
structure NodeRef where
  isLeaf_ : Bool
  unbalanced_ : Bool
  key_ : SliceRef
  id_ : Pgid
  parent_ : Option NodePtr
  inodes : List INodeRef
  deriving DecidableEq, Repr

/-- A result under a map is the image of a result. -/
theorem ok_of_map {ε β γ : Type} {x : Except ε β} {g : β → γ} {c : γ}
    (h : x.map g = .ok c) : ∃ b, x = .ok b ∧ g b = c := by
  cases x with
  | error e => cases h
  | ok b => exact ⟨b, rfl, Except.ok.inj h⟩

namespace NodeRef

def deref (m : Mem) (n : NodeRef) : Node where
  isLeaf_ := n.isLeaf_
  unbalanced_ := n.unbalanced_
  key_ := n.key_.bytes m
  id_ := n.id_
  parent_ := n.parent_
  inodes := n.inodes.map (INodeRef.deref m)

/-- A byte that one of the inodes refers to. -/
def Covers (n : NodeRef) (a : Nat) : Prop := ∃ x ∈ n.inodes, x.Covers a

theorem inodes_deref_congr {n : NodeRef} {m m' : Mem} (h : ∀ a, n.Covers a → m' a = m a) :
    (n.deref m').inodes = (n.deref m).inodes :=
  List.map_congr_left fun x hx => INodeRef.deref_congr fun a ha => h a ⟨x, hx, ha⟩

/-! ### Update -/

def lowerBound (m : Mem) (inodes : List INodeRef) (key : SliceRef) : Nat :=
  Bisect.lowerBound (fun x => Slice.lt (x.key.bytes m) (key.bytes m)) inodes

def exact (n : NodeRef) (m : Mem) (key : SliceRef) : Bool :=
  decide ((n.inodes.length : Int) > 0) &&
    match n.inodes[lowerBound m n.inodes key]? with
    | some x => Slice.beq (x.key.bytes m) (key.bytes m)
    | none => false

/-- `get`; the string behind `value` has its own bytes. -/
def get (n : NodeRef) (m : Mem) (key : SliceRef) (value : Option Slice) :
    Except Fault (Int × Option Slice) :=
  match value with
  | none => throw (.exit " value is null\n")
  | some _ =>
      if n.exact m key then do
        let inode ← vecAt n.inodes (lowerBound m n.inodes key)
        pure (0, some (inode.value.bytes m))
      else pure (-1, value)

def put (n : NodeRef) (m : Mem) (pgid : Option Pgid) (oldKey newKey value : SliceRef) (id : Pgid)
    (flags : UInt32) : Except Fault NodeRef :=
  match pgid with
  | none => throw (.exit "meta is null\n")
  | some pgid =>
      if id ≥ pgid then
        throw (.exit s!"pgid ({id}) above high water mark ({pgid})")
      else if oldKey.size_ = 0 then throw (.exit "put: zero-length old key\n")
      else if newKey.size_ = 0 then throw (.exit "put: zero-length new key\n")
      else
        let index := lowerBound m n.inodes oldKey
        let inodes := if n.exact m oldKey then n.inodes else n.inodes.insertIdx index {}
        let inode : INodeRef := { flags := flags, key := newKey, value := value, id := id }
        let inodes := inodes.set index inode
        if inode.key.size_ = 0 then throw (.exit "put: zero-length inode key\n")
        else pure { n with inodes := inodes }

def del (n : NodeRef) (m : Mem) (key : SliceRef) : Except Fault NodeRef :=
  if key.size_ = 0 then throw (.exit "del: zero-length key\n")
  else if n.exact m key then
    pure { n with inodes := n.inodes.eraseIdx (lowerBound m n.inodes key), unbalanced_ := true }
  else pure n

/-- The two updates, as their caller makes them. -/
inductive Op where
  | put (k v : SliceRef) (id : Pgid) (flags : UInt32)
  | del (k : SliceRef)

def Op.deref (m : Mem) : Op → Node.Op
  | put k v id flags => .put (k.bytes m) (v.bytes m) id flags
  | del k => .del (k.bytes m)

/-- One update of a node. -/
def runOp (pgid : Pgid) (n : NodeRef) (m : Mem) : Op → Except Fault NodeRef
  | .put k v id flags => n.put m (some pgid) k k v id flags
  | .del k => n.del m k

section

variable (n : NodeRef) (m : Mem) (key : SliceRef)

theorem lowerBound_deref :
    Node.lowerBound (n.deref m).inodes (key.bytes m) = lowerBound m n.inodes key :=
  Bisect.lowerBound_congr (List.map_map ..)

theorem exact_deref : (n.deref m).exact (key.bytes m) = n.exact m key := by
  have hlen : (n.deref m).numChildren = n.inodes.length :=
    congrArg Nat.cast (List.length_map (INodeRef.deref m))
  rw [Node.exact, exact, lowerBound_deref, hlen, deref, List.getElem?_map]
  rcases n.inodes[lowerBound m n.inodes key]? with - | x <;> rfl

/-- `get` on what the slices refer to. -/
theorem get_deref (value : Option Slice) :
    (n.deref m).get (key.bytes m) value = n.get m key value := by
  cases value with
  | none => rfl
  | some s =>
      have hinodes : (n.deref m).inodes = n.inodes.map (INodeRef.deref m) := rfl
      simp only [get, Node.get, lowerBound_deref, exact_deref]
      rw [hinodes, vecAt_map_bind]
      rfl

/-- **`put`** on what the slices refer to. -/
theorem put_deref (pgid : Option Pgid) (newKey value : SliceRef) (id : Pgid) (flags : UInt32) :
    (n.put m pgid key newKey value id flags).map (deref m)
      = (n.deref m).put pgid (key.bytes m) (newKey.bytes m) (value.bytes m) id flags := by
  cases pgid with
  | none => rfl
  | some pgid =>
      simp only [put, Node.put, SliceRef.length_bytes, lowerBound_deref, exact_deref]
      split_ifs
      all_goals first | rfl | skip
      · refine congrArg (fun xs => Except.ok { n.deref m with inodes := xs }) ?_
        exact List.map_set
      · refine congrArg (fun xs => Except.ok { n.deref m with inodes := xs }) ?_
        rw [List.map_set, List.map_insertIdx]
        rfl

/-- **`del`** on what the slices refer to. -/
theorem del_deref : (n.del m key).map (deref m) = (n.deref m).del (key.bytes m) := by
  simp only [del, Node.del, SliceRef.length_bytes, lowerBound_deref, exact_deref]
  split_ifs
  · rfl
  · refine congrArg (fun xs => Except.ok { n.deref m with inodes := xs, unbalanced_ := true }) ?_
    exact (List.eraseIdx_map ..).symm
  · rfl

theorem runOp_deref (pgid : Pgid) (op : Op) :
    (n.runOp pgid m op).map (deref m) = (n.deref m).runOp pgid (op.deref m) := by
  cases op with
  | put k v id flags => exact put_deref n m k (some pgid) k v id flags
  | del k => exact del_deref n m k

end

/-! ### Reading a page -/

/-- One iteration of the loop of `read`: the slices refer to the page. -/
def readInode (m : Mem) (p : Nat) (isLeaf : Bool) (i : Nat) : Except Fault INodeRef :=
  let inode : INodeRef := {}
  let inode :=
    if isLeaf then
      let elem := Page.leafPageElement m p (toUInt16 i)
      let pos := (LeafPageElement.pos m elem).toNat
      let ksize := (LeafPageElement.ksize m elem).toNat
      { inode with
        flags := LeafPageElement.flags m elem
        key := ⟨elem + pos, ksize⟩
        value := ⟨elem + pos + ksize, (LeafPageElement.vsize m elem).toNat⟩ }
    else
      let elem := Page.branchPageElement m p (toUInt16 i)
      let _inode : INodeRef :=
        { id := BranchPageElement.id m elem
          key := ⟨elem + (BranchPageElement.pos m elem).toNat,
            (BranchPageElement.ksize m elem).toNat⟩ }
      inode
  if inode.key.size_ = 0 then throw (.exit "read: zero-length inode key\n")
  else pure inode

def read (n : NodeRef) (m : Mem) (p : Nat) : Except Fault NodeRef := do
  let isLeaf := decide (Page.flags m p &&& LeafPageFlag ≠ 0)
  let inodes ← (List.range (Page.count m p).toNat).mapM (readInode m p isLeaf)
  let n := { n with id_ := Page.id m p, isLeaf_ := isLeaf, inodes := inodes }
  match inodes with
  | [] => pure n
  | first :: _ =>
      if first.key.size_ > 0 then pure { n with key_ := first.key }
      else throw (.assertion "key_.size() > 0")

theorem readInode_deref (m : Mem) (p : Nat) (isLeaf : Bool) (i : Nat) :
    (readInode m p isLeaf i).map (INodeRef.deref m) = Node.readInode m p isLeaf i := by
  cases isLeaf
  · rfl
  · simp only [readInode, Node.readInode, if_true, LeafPageElement.key, length_read]
    split <;> rfl

/-- A loop whose every iteration is the image of another one's. -/
theorem mapM_map {ε α β γ : Type} {f : α → Except ε β} {f' : α → Except ε γ} {g : β → γ}
    (h : ∀ x, (f x).map g = f' x) (xs : List α) :
    (xs.mapM f).map (List.map g) = xs.mapM f' := by
  induction xs with
  | nil => rfl
  | cons x xs ih =>
      rw [List.mapM_cons, List.mapM_cons, ← h x, ← ih]
      rcases f x with - | y
      · rfl
      · rcases xs.mapM f with - | ys <;> rfl

/-- **`read`** fills in slices that refer to what the page holds. -/
theorem read_deref (n : NodeRef) (m : Mem) (p : Nat) :
    (n.read m p).map (deref m) = (n.deref m).read m p := by
  rw [read, Node.read, ← mapM_map (readInode_deref m p _)]
  rcases (List.range (Page.count m p).toNat).mapM (readInode m p _) with - | inodes
  · rfl
  · cases inodes with
    | nil => rfl
    | cons first rest =>
        have hlen : (first.key.bytes m).length = first.key.size_ := first.key.length_bytes m
        show Except.map (deref m) (if first.key.size_ > 0 then _ else _)
          = if (first.key.bytes m).length > 0 then _ else _
        rw [hlen]
        split <;> rfl

/-! ### Writing a page -/

/-- The two `memcpy`s of an inode to `b`.  The value is copied from what the
first one has left. -/
def copyInode (m : Mem) (b : Nat) (n : INodeRef) : Mem :=
  let m := m.write b (n.key.bytes m)
  m.write (b + n.key.size_) (n.value.bytes m)

/-- The loop of `write`, from inode `i` on with the write pointer at `b`. -/
def writeLoop (isLeaf : Bool) (p : Nat) : List INodeRef → Nat → Nat → Mem → Except Fault Mem
  | [], _, _, m => pure m
  | n :: rest, i, b, m => do
      let m ←
        if isLeaf then
          pure (Node.writeLeafElement m (Page.leafPageElement m p (toUInt16 i)) b (n.deref m))
        else
          let elem := Page.branchPageElement m p (toUInt16 i)
          let m := Node.writeBranchElement m elem b (n.deref m)
          if BranchPageElement.id m elem ≠ Page.id m p then
            throw (.exit "write: circular dependency occured\n")
          else pure m
      writeLoop isLeaf p rest (i + 1) (b + n.key.size_ + n.value.size_) (copyInode m b n)

def write (n : NodeRef) (m : Mem) (p : Nat) : Except Fault Mem :=
  let m := Page.setFlags m p (if n.isLeaf_ then LeafPageFlag else BranchPageFlag)
  if n.inodes.length > 0xffff then
    throw (.exit s!"page's count is overflow: pgid = {Page.id m p}")
  else
    let m := Page.unsetOverflow m p
    let m := Page.setCount m p (toUInt32 n.inodes.length)
    if Page.count m p = 0 then pure m
    else
      let b := Page.ptr m p
        + n.inodes.length * (if n.isLeaf_ then leafPageElementSize else branchPageElementSize)
      writeLoop n.isLeaf_ p n.inodes 0 b m

/-- The bytes of the data area that `write` uses. -/
def imageSize (n : NodeRef) : Nat := 16 * n.inodes.length + (n.inodes.map INodeRef.size).sum

/-- A byte that `write` may change. -/
def Writes (n : NodeRef) (m : Mem) (p a : Nat) : Prop :=
  Page.InHeader p a ∨ Page.ptr m p ≤ a ∧ a < Page.ptr m p + n.imageSize

/-- `write` keeps off the bytes that the inodes refer to. -/
def KeepsOff (n : NodeRef) (m : Mem) (p : Nat) : Prop := ∀ a, n.Covers a → ¬ n.Writes m p a

/-! #### One round -/

/-- How many bytes the inodes refer to. -/
def sizes (xs : List INodeRef) : Nat := (xs.map INodeRef.size).sum

theorem sizes_cons (x : INodeRef) (xs : List INodeRef) : sizes (x :: xs) = x.size + sizes xs :=
  rfl

theorem length_payload_deref (m : Mem) (xs : List INodeRef) :
    (payload (xs.map (INodeRef.deref m))).length = sizes xs := by
  induction xs with
  | nil => rfl
  | cons x xs ih =>
      rw [List.map_cons, payload_cons, List.length_append, ih, INodeRef.length_bytes_deref,
        sizes_cons]

/-- The room that `write` needs depends on the sizes only. -/
theorem length_image_deref (n : NodeRef) (m : Mem) (isLeaf : Bool) :
    (image isLeaf (n.deref m).inodes).length = n.imageSize := by
  rw [length_image, deref, length_payload_deref, List.length_map]
  rfl

theorem copyInode_of_outside {m : Mem} {b a : Nat} {n : INodeRef}
    (h : a < b ∨ b + n.size ≤ a) : copyInode m b n a = m a := by
  rw [INodeRef.size] at h
  rcases h with h | h
  · rw [copyInode, write_of_lt _ _ (by omega), write_of_lt _ _ h]
  · rw [copyInode, write_of_ge _ _ (by rw [SliceRef.length_bytes]; omega),
      write_of_ge _ _ (by rw [SliceRef.length_bytes]; omega)]

/-- The bytes that are copied are those the inode refers to, if it does not
refer to where they go. -/
theorem copyInode_eq {m : Mem} {b : Nat} {n : INodeRef}
    (h : ∀ a, n.Covers a → a < b ∨ b + n.size ≤ a) :
    copyInode m b n = m.write b (n.deref m).bytes := by
  have hvalue : n.value.bytes (m.write b (n.key.bytes m)) = n.value.bytes m := by
    refine SliceRef.bytes_congr fun a ha => ?_
    have hout := h a (Or.inr ha)
    rw [INodeRef.size] at hout
    rcases hout with hlt | hge
    · exact write_of_lt _ _ hlt
    · exact write_of_ge _ _ (by rw [SliceRef.length_bytes]; omega)
  have hfuse := write_write_append m b (n.key.bytes m) (n.value.bytes m)
  rw [SliceRef.length_bytes] at hfuse
  rw [copyInode, hvalue, hfuse]
  rfl

/-- The memory after round `i` with the write pointer at `b`. -/
def roundMem (isLeaf : Bool) (p i b : Nat) (m : Mem) (n : INodeRef) : Mem :=
  copyInode (m.write (Page.ptr m p + 16 * i)
    ((n.deref m).header isLeaf (b - (Page.ptr m p + 16 * i)))) b n

section

variable {isLeaf : Bool} {p i b : Nat} {m : Mem} {n : INodeRef} {rest : List INodeRef}

theorem roundMem_of_outside (hb : Page.ptr m p + 16 * i + 16 ≤ b) {a : Nat}
    (ha : a < Page.ptr m p + 16 * i ∨ b + n.size ≤ a) : roundMem isLeaf p i b m n a = m a := by
  rw [roundMem, copyInode_of_outside (by omega)]
  rcases ha with hlt | hge
  · exact write_of_lt _ _ hlt
  · exact write_of_ge _ _ (by rw [INode.length_header]; omega)

theorem sameHeader_roundMem (hb : Page.ptr m p + 16 * i + 16 ≤ b)
    (hclear : Clear p (Page.ptr m p + 16 * i) (b - (Page.ptr m p + 16 * i) + n.size)) :
    Page.SameHeader m (roundMem isLeaf p i b m n) p p := by
  refine Page.sameHeader_of_bytes fun j hj => roundMem_of_outside hb ?_
  rcases hclear with h | h
  · exact Or.inr (by omega)
  · exact Or.inl (by omega)

theorem writeLoop_cons (hi : i < 65536) (hb : Page.ptr m p + 16 * i + 16 ≤ b)
    (hclear : Clear p (Page.ptr m p + 16 * i) 16) :
    writeLoop isLeaf p (n :: rest) i b m
      = if isLeaf = false ∧ n.id ≠ Page.id m p then
          .error (.exit "write: circular dependency occured\n")
        else writeLoop isLeaf p rest (i + 1) (b + n.size) (roundMem isLeaf p i b m n) := by
  have hle : Page.ptr m p + 16 * i ≤ b := by omega
  have hsize : b + n.key.size_ + n.value.size_ = b + n.size := Nat.add_assoc ..
  cases isLeaf with
  | true =>
      have helem := Page.leafPageElement_of_lt m p hi
      simp only [writeLoop, if_true, helem, writeLeafElement_eq m _ hle, Bool.true_eq_false,
        false_and, if_false, pure_bind, hsize, roundMem]
  | false =>
      have helem := Page.branchPageElement_of_lt m p hi
      -- the check reads the page's id after the element has been stored
      have hpid : Page.id (Node.writeBranchElement m (Page.ptr m p + 16 * i) b (n.deref m)) p
          = Page.id m p := by
        rw [writeBranchElement_eq m _ hle]
        exact (Page.sameHeader_write m _ (by simpa [Clear] using hclear)).id
      have hnid : (n.deref m).id = n.id := rfl
      simp only [writeLoop, Bool.false_eq_true, if_false, helem, id_writeBranchElement m _ hle,
        hpid, hnid, true_and]
      by_cases hid : n.id = Page.id m p
      · simp only [hid, ne_eq, not_true_eq_false, if_false, pure_bind,
          writeBranchElement_eq m _ hle, hsize, roundMem]
      · simp only [hid, ne_eq, not_false_eq_true, if_true]
        rfl

/-- A round on the bytes, if the inode does not refer to where they go. -/
theorem roundMem_eq (hb : Page.ptr m p + 16 * i + 16 ≤ b)
    (h : ∀ a, n.Covers a → a < Page.ptr m p + 16 * i ∨ b + n.size ≤ a) :
    roundMem isLeaf p i b m n
      = (m.write (Page.ptr m p + 16 * i)
          ((n.deref m).header isLeaf (b - (Page.ptr m p + 16 * i)))).write b
        (n.deref m).bytes := by
  rw [roundMem, copyInode_eq fun a ha => (h a ha).imp (by omega) id]
  refine congrArg (fun x : INode => Mem.write _ b x.bytes) (INodeRef.deref_congr fun a ha => ?_)
  rcases h a ha with hlt | hge
  · exact write_of_lt _ _ hlt
  · exact write_of_ge _ _ (by rw [INode.length_header]; omega)

end

/-! #### The loop -/

/-- What the rounds to come may rely on. -/
structure InLoop (p : Nat) (m : Mem) (i b : Nat) (rest : List INodeRef) : Prop where
  index : i + rest.length ≤ 65536
  headers : Page.ptr m p + 16 * i + 16 * rest.length ≤ b
  clear : Clear p (Page.ptr m p + 16 * i) (b - (Page.ptr m p + 16 * i) + sizes rest)

section

variable {isLeaf : Bool} {p i b : Nat} {m : Mem} {n : INodeRef} {rest : List INodeRef}

theorem InLoop.cons (h : InLoop p m i b (n :: rest)) :
    i < 65536 ∧ Page.ptr m p + 16 * i + 16 ≤ b ∧ Clear p (Page.ptr m p + 16 * i) 16 ∧
      Page.SameHeader m (roundMem isLeaf p i b m n) p p ∧
      InLoop p (roundMem isLeaf p i b m n) (i + 1) (b + n.size) rest := by
  obtain ⟨hindex, hheaders, hclear⟩ := h
  rw [List.length_cons] at hindex hheaders
  rw [sizes_cons] at hclear
  have hb : Page.ptr m p + 16 * i + 16 ≤ b := by omega
  have hsame : Page.SameHeader m (roundMem isLeaf p i b m n) p p :=
    sameHeader_roundMem hb (hclear.mono (Nat.le_refl _) (by omega))
  refine ⟨by omega, hb, hclear.mono (Nat.le_refl _) (by omega), hsame, by omega, ?_, ?_⟩
  · rw [hsame.ptr]
    omega
  · rw [hsame.ptr]
    exact hclear.mono (by omega) (by omega)

/-- **The loop changes its part of the data area only**, whatever the inodes
refer to. -/
theorem writeLoop_frame (isLeaf : Bool) (p : Nat) (rest : List INodeRef) :
    ∀ {i b : Nat} {m m' : Mem}, InLoop p m i b rest →
      writeLoop isLeaf p rest i b m = .ok m' →
      ∀ a, a < Page.ptr m p + 16 * i ∨ b + sizes rest ≤ a → m' a = m a := by
  induction rest with
  | nil =>
      intro i b m m' _ hrun a _
      cases hrun
      rfl
  | cons n rest ih =>
      intro i b m m' hin hrun a ha
      obtain ⟨hi, hb, hclear, hsame, hin'⟩ := hin.cons
      rw [sizes_cons] at ha
      rw [writeLoop_cons hi hb hclear] at hrun
      split at hrun
      · cases hrun
      · have hrest := ih hin' hrun a (by rw [hsame.ptr]; omega)
        exact hrest.trans (roundMem_of_outside hb (by omega))

/-- **The loop on the bytes**, if the inodes do not refer to where it
writes. -/
theorem writeLoop_deref (isLeaf : Bool) (p : Nat) (rest : List INodeRef) :
    ∀ {i b : Nat} {m : Mem}, InLoop p m i b rest →
      (∀ x ∈ rest, ∀ a, x.Covers a → a < Page.ptr m p + 16 * i ∨ b + sizes rest ≤ a) →
      writeLoop isLeaf p rest i b m
        = Node.writeLoop isLeaf p (rest.map (INodeRef.deref m)) i b m := by
  induction rest with
  | nil => exact fun _ _ => rfl
  | cons n rest ih =>
      intro i b m hin hoff
      obtain ⟨hi, hb, hclear, hsame, hin'⟩ :
          i < 65536 ∧ _ ∧ _ ∧ Page.SameHeader m (roundMem isLeaf p i b m n) p p ∧ _ := hin.cons
      rw [sizes_cons] at hoff
      have hn : ∀ a, n.Covers a → a < Page.ptr m p + 16 * i ∨ b + n.size ≤ a := fun a ha =>
        (hoff n List.mem_cons_self a ha).imp id (by omega)
      have hrest : ∀ x ∈ rest, ∀ a, x.Covers a →
          a < Page.ptr m p + 16 * i ∨ b + n.size + sizes rest ≤ a := fun x hx a ha =>
        (hoff x (List.mem_cons_of_mem _ hx) a ha).imp id (by omega)
      -- the inodes to come refer to the same bytes after this round
      have hderef : rest.map (INodeRef.deref (roundMem isLeaf p i b m n))
          = rest.map (INodeRef.deref m) :=
        List.map_congr_left fun x hx => INodeRef.deref_congr fun a ha =>
          roundMem_of_outside hb ((hrest x hx a ha).imp id (by omega))
      have hih := ih hin' fun x hx a ha => by
        have hout := hrest x hx a ha
        rw [hsame.ptr]
        omega
      have hlen := INodeRef.length_bytes_deref m n
      rw [writeLoop_cons hi hb hclear, List.map_cons, BoltCpp.writeLoop_cons isLeaf hi hb hclear,
        hlen, ← roundMem_eq hb hn, hih, hderef]
      rfl

end

/-! #### The whole page -/

section

variable {n : NodeRef} {m m' : Mem} {p : Nat}

/-- `write` up to the loop. -/
theorem write_unfold (hlen : n.inodes.length ≤ 0xffff) :
    n.write m p = writeLoop n.isLeaf_ p n.inodes 0 (Page.ptr m p + 16 * n.inodes.length)
      (withHeader m p (n.deref m)) := by
  have hgt : ¬ n.inodes.length > 0xffff := by omega
  have hcount : (toUInt32 (n.inodes.length : Int)).toNat = n.inodes.length :=
    toNat_toUInt32 (by omega)
  have hfold : Page.setCount (Page.unsetOverflow (Page.setFlags m p
      (if n.isLeaf_ then LeafPageFlag else BranchPageFlag)) p) p
      (toUInt32 n.inodes.length) = withHeader m p (n.deref m) := by
    rw [withHeader, deref, List.length_map]
  have hsize : (if n.isLeaf_ then leafPageElementSize else branchPageElementSize) = 16 := by
    cases n.isLeaf_ <;> rfl
  have hderef : (n.deref m).inodes.length = n.inodes.length := List.length_map _
  simp only [write, if_neg hgt, hfold, count_withHeader, hderef]
  by_cases h0 : toUInt32 (n.inodes.length : Int) = 0
  · have hnil : n.inodes = [] := by
      rw [h0] at hcount
      exact List.length_eq_zero_iff.mp hcount.symm
    rw [if_pos h0, hnil]
    rfl
  · rw [if_neg h0, ptr_withHeader, hsize, Nat.mul_comm]

/-- Where the loop starts. -/
theorem inLoop_start (hlen : n.inodes.length ≤ 0xffff) (hroom : Page.HasRoom m p n.imageSize) :
    InLoop p (withHeader m p (n.deref m)) 0 (Page.ptr m p + 16 * n.inodes.length) n.inodes := by
  refine ⟨by omega, by rw [ptr_withHeader]; omega, ?_⟩
  rw [ptr_withHeader]
  rw [Page.HasRoom, imageSize] at hroom
  exact hroom.mono (by omega) (by rw [sizes]; omega)

/-- **`write` changes no other byte**, whatever the inodes refer to. -/
theorem write_frame (hwrite : n.write m p = .ok m') (hroom : Page.HasRoom m p n.imageSize)
    {a : Nat} (ha : ¬ n.Writes m p a) : m' a = m a := by
  obtain ⟨hheader, harea⟩ := not_or.mp ha
  by_cases hlen : n.inodes.length ≤ 0xffff
  · rw [write_unfold hlen] at hwrite
    refine (writeLoop_frame _ _ _ (inLoop_start hlen hroom) hwrite a ?_).trans
      (withHeader_of_outside m _ hheader)
    rw [ptr_withHeader, sizes]
    rw [imageSize] at harea
    omega
  · rw [write, if_pos (not_le.mp hlen)] at hwrite
    cases hwrite

/-- **`write` on what the slices refer to**, if it keeps off these bytes. -/
theorem write_deref (hroom : Page.HasRoom m p n.imageSize) (hoff : n.KeepsOff m p) :
    n.write m p = (n.deref m).write m p := by
  have hderef : (n.deref m).inodes.length = n.inodes.length := List.length_map _
  by_cases hlen : n.inodes.length ≤ 0xffff
  · have hkept : ∀ a, n.Covers a → withHeader m p (n.deref m) a = m a := fun a ha =>
      withHeader_of_outside m _ fun hin => hoff a ha (Or.inl hin)
    have hsame : n.inodes.map (INodeRef.deref (withHeader m p (n.deref m)))
        = (n.deref m).inodes := inodes_deref_congr hkept
    rw [write_unfold hlen, Node.write_unfold (by rwa [hderef]), hderef,
      writeLoop_deref _ _ _ (inLoop_start hlen hroom), hsame]
    · rfl
    · intro x hx a ha
      have hout : ¬ (Page.ptr m p ≤ a ∧ a < Page.ptr m p + n.imageSize) := fun hin =>
        hoff a ⟨x, hx, ha⟩ (Or.inr hin)
      rw [imageSize] at hout
      rw [ptr_withHeader, sizes]
      omega
  · rw [write, Node.write, hderef, if_pos (not_le.mp hlen), if_pos (not_le.mp hlen)]
    rfl

/-- Then the inodes refer to the same bytes afterwards. -/
theorem inodes_deref_write (hwrite : n.write m p = .ok m')
    (hroom : Page.HasRoom m p n.imageSize) (hoff : n.KeepsOff m p) :
    (n.deref m').inodes = (n.deref m).inodes :=
  inodes_deref_congr fun a ha => write_frame hwrite hroom (hoff a ha)

end

end NodeRef

end BoltCpp
