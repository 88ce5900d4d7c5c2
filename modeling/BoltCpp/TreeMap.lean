/-
BoltCpp/TreeMap.lean

A bucket whose tree is held in nodes is a sorted map.

An update goes where `seek_` leaves the cursor: `Node::put` or `Node::del` on
the node of the leaf on top of the stack.  A `NodeTree` is the shape of the
tree, which no update changes; its `contents` are read off the heap.  The
descent ends in the leaf the separators route the key to (`search_routesTo`),
and replacing that one node is the library's `update`, provided no node takes
two places in the tree (`RoutesTo.contents_setNode`).  So a run of any length
keeps

    Represents (S.contents h).elements f

where `f` is the map the same updates build (`runUpdates_spec`), and a cursor
that seeks in the tree afterwards enumerates the map.
-/
import BoltCpp.Seek
import BoltCpp.Lib.TreeUpdate

namespace BoltCpp

open KeyedList MultiTree

/-- The inodes of a leaf are in the order of its entries. -/
theorem sorted_entries_iff {xs : List INode} :
    Sorted Entry.key (xs.map INode.entry) ↔ Sorted INode.key xs :=
  List.pairwise_map

/-! ### Shapes -/

/-- Which node is where in a tree. -/
inductive NodeTree where
  | leaf (q : NodePtr)
  | branch (q : NodePtr) (n : Nat) (child : Fin n → NodeTree)

namespace NodeTree

/-- The node at the root. -/
def ptr : NodeTree → NodePtr
  | leaf q => q
  | branch q _ _ => q

/-- All nodes, a branch before its children. -/
def ptrs : NodeTree → List NodePtr
  | leaf q => [q]
  | branch q _ child => q :: (List.ofFn fun i => (child i).ptrs).flatten

/-- Inode `i` of a node. -/
def inodeAt (nd : Node) (i : Nat) : INode := nd.inodes[i]?.getD {}

/-- The tree the nodes stand for. -/
def contents (h : Heap) : NodeTree → Tree
  | leaf q => .leaf ((h.node q).inodes.map INode.entry)
  | branch q n child =>
      .branch n (fun i => (inodeAt (h.node q) i).key) fun i => (child i).contents h

/-- The ids in the branches resolve to the children. -/
def Fits (h : Heap) (b : Bucket) : NodeTree → Prop
  | leaf q => (h.node q).isLeaf_ = true
  | branch q n child =>
      (h.node q).isLeaf_ = false ∧ (h.node q).inodes.length = n ∧
        ∀ i : Fin n, b.pageNode (inodeAt (h.node q) i).id = .ok (none, some (child i).ptr) ∧
          (child i).Fits h b

variable {h h' : Heap} {b : Bucket} {key : Slice}

theorem mem_ptrs_child {q r : NodePtr} {n : Nat} {child : Fin n → NodeTree} {i : Fin n}
    (hr : r ∈ (child i).ptrs) : r ∈ (branch q n child).ptrs :=
  List.mem_cons_of_mem _ (List.mem_flatten.mpr ⟨_, List.mem_ofFn.mpr ⟨i, rfl⟩, hr⟩)

theorem map_inodes {nd : Node} {n : Nat} (hlen : nd.inodes.length = n) :
    nd.inodes.map (fun x => (x.key, x.id))
      = List.ofFn fun i : Fin n => ((inodeAt nd i).key, (inodeAt nd i).id) := by
  subst hlen
  refine List.ext_getElem (by simp) fun i hi _ => ?_
  have hlt : i < nd.inodes.length := by simpa using hi
  simp only [List.getElem_map, List.getElem_ofFn, inodeAt, List.getElem?_eq_getElem hlt,
    Option.getD_some]

/-- The nodes store the tree they stand for; there are no pages to lay out. -/
theorem Fits.stored {S : NodeTree} (hS : S.Fits h b) (L : Layout) :
    Stored h b L (S.contents h) (none, some S.ptr) := by
  induction S with
  | leaf q => exact ⟨hS, rfl⟩
  | branch q n child ih =>
      obtain ⟨hleaf, hlen, hchild⟩ := hS
      exact ⟨_, ⟨hleaf, map_inodes hlen⟩, fun i => ⟨_, (hchild i).1, ih i (hchild i).2⟩⟩

/-- Nodes elsewhere do not matter. -/
theorem contents_congr {S : NodeTree} (hsame : ∀ r ∈ S.ptrs, h'.node r = h.node r) :
    S.contents h' = S.contents h := by
  induction S with
  | leaf q => rw [contents, contents, hsame q List.mem_cons_self]
  | branch q n child ih =>
      have hchild : ∀ i, (child i).contents h' = (child i).contents h := fun i =>
        ih i fun r hr => hsame r (mem_ptrs_child hr)
      simp only [contents, hsame q List.mem_cons_self, hchild]

theorem Fits.congr {S : NodeTree} (hS : S.Fits h b)
    (hsame : ∀ r ∈ S.ptrs, h'.node r = h.node r) : S.Fits h' b := by
  induction S with
  | leaf q =>
      rw [Fits, hsame q List.mem_cons_self]
      exact hS
  | branch q n child ih =>
      rw [Fits, hsame q List.mem_cons_self]
      obtain ⟨hleaf, hlen, hchild⟩ := hS
      exact ⟨hleaf, hlen, fun i =>
        ⟨(hchild i).1, ih i (hchild i).2 fun r hr => hsame r (mem_ptrs_child hr)⟩⟩

/-! ### The leaf for a key -/

/-- The separators route the key to the leaf `q`. -/
inductive RoutesTo (h : Heap) (key : Slice) : NodeTree → NodePtr → Prop
  | leaf (q : NodePtr) : RoutesTo h key (leaf q) q
  | branch {p q : NodePtr} {n : Nat} {child : Fin n → NodeTree} {c : Fin n}
      (hc : Routes (fun i : Fin n => (inodeAt (h.node p) i).key) key c)
      (hq : RoutesTo h key (child c) q) : RoutesTo h key (branch p n child) q

/-- **The descent of `search`** ends in that leaf. -/
theorem search_routesTo (vec : Nat → Nat) (S : NodeTree) :
    ∀ {fuel : Nat} {id : Pgid} (rest : Cursor.Stack),
      b.pageNode id = .ok (none, some S.ptr) → S.Fits h b →
      (S.contents h).Ordered Entry.key → (S.contents h).BranchesNonempty →
      (S.contents h).size ≤ fuel →
      ∃ q i stack, RoutesTo h key S q ∧
        Cursor.search b vec key fuel h id rest = .ok (⟨none, some q, i⟩ :: stack) := by
  induction S with
  | leaf q =>
      intro fuel id rest hid hfits _ _ hfuel
      obtain ⟨k, rfl⟩ : ∃ k, fuel = k + 1 :=
        ⟨fuel - 1, by simp only [contents, MultiTree.size] at hfuel; omega⟩
      have hid : b.pageNode id = .ok (none, some q) := hid
      have hleaf : (⟨none, some q, 0⟩ : ElemRef).isLeaf h = .ok true :=
        isLeaf_of_stored_leaf (Fits.stored hfits nodeLayout)
      refine ⟨q, (Node.lowerBound (h.node q).inodes key : Nat), rest, .leaf q, ?_⟩
      simp only [Cursor.search, hid, ok_bind, pure_bind, hleaf, Cursor.nsearch, if_true]
      rfl
  | branch p n child ih =>
      intro fuel id rest hid hfits ho hne hfuel
      have hid : b.pageNode id = .ok (none, some p) := hid
      have hleaf : (⟨none, some p, 0⟩ : ElemRef).isLeaf h = .ok false :=
        isLeaf_of_stored_branch (Fits.stored hfits nodeLayout)
      obtain ⟨-, hlen, hchild⟩ := hfits
      -- `searchNode` chooses the child of the route
      obtain ⟨c, hsearch, hroutes⟩ := Cursor.searchNode_eq (map_inodes hlen) ho.1 hne.1 key
      have hlt := size_child_lt n (fun i : Fin n => (inodeAt (h.node p) i).key)
        (fun i => (child i).contents h) c
      simp only [contents] at hfuel
      obtain ⟨k, rfl⟩ : ∃ k, fuel = k + 1 := ⟨fuel - 1, by omega⟩
      obtain ⟨q, i, stack, hq, hrun⟩ := ih c (⟨none, some p, (c : Nat)⟩ :: rest)
        (hchild c).1 (hchild c).2 (ho.2.1 c) (hne.2 c) (Nat.lt_succ_iff.mp (hlt.trans_le hfuel))
      refine ⟨q, i, stack, .branch hroutes hq, ?_⟩
      simp only [Cursor.search, hid, ok_bind, hleaf, Bool.false_eq_true, if_false, hsearch]
      exact hrun

theorem RoutesTo.mem_ptrs {S : NodeTree} {q : NodePtr} (hq : RoutesTo h key S q) :
    q ∈ S.ptrs := by
  induction hq with
  | leaf q => exact List.mem_cons_self
  | branch _ _ ih => exact mem_ptrs_child ih

theorem RoutesTo.isLeaf {S : NodeTree} {q : NodePtr} (hq : RoutesTo h key S q)
    (hS : S.Fits h b) : (h.node q).isLeaf_ = true := by
  induction hq with
  | leaf q => exact hS
  | branch _ _ ih => exact ih (hS.2.2 _).2

theorem RoutesTo.sorted {S : NodeTree} {q : NodePtr} (hq : RoutesTo h key S q)
    (ho : (S.contents h).Ordered Entry.key) : Sorted INode.key (h.node q).inodes := by
  induction hq with
  | leaf q => exact sorted_entries_iff.mp ho
  | branch _ _ ih => exact ih (ho.2.1 _)

/-- Where no node takes two places, the leaf is neither the root nor in another
child. -/
theorem not_mem_of_nodup {p q : NodePtr} {n : Nat} {child : Fin n → NodeTree} {c : Fin n}
    (hnd : (branch p n child).ptrs.Nodup) (hq : q ∈ (child c).ptrs) :
    q ≠ p ∧ ∀ i, i ≠ c → q ∉ (child i).ptrs := by
  rw [ptrs, List.nodup_cons, List.nodup_flatten, List.pairwise_ofFn] at hnd
  obtain ⟨hroot, -, hdisj⟩ := hnd
  refine ⟨?_, fun i hi hmem => ?_⟩
  · rintro rfl
    exact hroot (List.mem_flatten.mpr ⟨_, List.mem_ofFn.mpr ⟨c, rfl⟩, hq⟩)
  · rcases lt_or_gt_of_ne hi with hlt | hgt
    · exact hdisj hlt hmem hq
    · exact hdisj hgt hq hmem

theorem nodup_child {p : NodePtr} {n : Nat} {child : Fin n → NodeTree}
    (hnd : (branch p n child).ptrs.Nodup) (c : Fin n) : (child c).ptrs.Nodup := by
  rw [ptrs, List.nodup_cons, List.nodup_flatten] at hnd
  exact hnd.2.1 _ (List.mem_ofFn.mpr ⟨c, rfl⟩)

/-- **Replacing the node of the leaf** updates the tree. -/
theorem RoutesTo.contents_setNode {S : NodeTree} {q : NodePtr} (hq : RoutesTo h key S q)
    (hnd : S.ptrs.Nodup) {nd : Node} {f : List Entry → List Entry}
    (hf : nd.inodes.map INode.entry = f ((h.node q).inodes.map INode.entry)) :
    S.contents (h.setNode q nd) = (S.contents h).update key f := by
  induction hq with
  | leaf q => rw [contents, contents, Heap.setNode_node_self, hf, update]
  | @branch p q n child c hc hq ih =>
      obtain ⟨hroot, hother⟩ := not_mem_of_nodup hnd hq.mem_ptrs
      rw [contents, contents, update_branch _ hc, Heap.setNode_node_of_ne hroot.symm]
      refine congrArg _ (funext fun i => ?_)
      by_cases hi : i = c
      · subst hi
        rw [Function.update_self]
        exact ih (nodup_child hnd _) hf
      · rw [Function.update_of_ne hi]
        exact contents_congr fun r hr =>
          Heap.setNode_node_of_ne fun h => hother i hi (h ▸ hr)

theorem RoutesTo.fits_setNode {S : NodeTree} {q : NodePtr} (hq : RoutesTo h key S q)
    (hnd : S.ptrs.Nodup) {nd : Node} (hS : S.Fits h b) (hleaf : nd.isLeaf_ = true) :
    S.Fits (h.setNode q nd) b := by
  induction hq with
  | leaf q =>
      rw [Fits, Heap.setNode_node_self]
      exact hleaf
  | @branch p q n child c hc hq ih =>
      obtain ⟨hroot, hother⟩ := not_mem_of_nodup hnd hq.mem_ptrs
      obtain ⟨hbranch, hlen, hchild⟩ := hS
      rw [Fits, Heap.setNode_node_of_ne hroot.symm]
      refine ⟨hbranch, hlen, fun i => ⟨(hchild i).1, ?_⟩⟩
      by_cases hi : i = c
      · subst hi
        exact ih (nodup_child hnd _) (hchild i).2
      · exact (hchild i).2.congr fun r hr =>
          Heap.setNode_node_of_ne fun h => hother i hi (h ▸ hr)

end NodeTree

/-! ### Updates of one leaf -/

namespace Node

def Op.key : Op → Slice
  | .put k _ _ _ => k
  | .del k => k

/-- What an update does to the entries of a leaf. -/
def Op.entries : Op → List Entry → List Entry
  | .put k v _ flags => KeyedList.insert Entry.key ⟨flags, k, v⟩
  | .del k => KeyedList.erase Entry.key k

/-- What it does to the map of entries. -/
def Op.bind (f : KeyedMap Entry.key) : Op → KeyedMap Entry.key
  | .put k v _ flags => f.insert ⟨flags, k, v⟩
  | .del k => f.erase k

theorem Op.localAt (op : Op) : LocalAt Entry.key op.key op.entries := by
  cases op with
  | put k v id flags =>
      have hins : LocalAt Entry.key k (KeyedList.insert Entry.key ⟨flags, k, v⟩) :=
        localAt_insert (⟨flags, k, v⟩ : Entry)
      exact hins
  | del k => exact localAt_erase k

theorem Op.represents {es : List Entry} {f : KeyedMap Entry.key} (hf : Represents es f)
    (op : Op) : Represents (op.entries es) (op.bind f) := by
  cases op with
  | put k v id flags => exact hf.insert _
  | del k => exact hf.erase k

theorem map_insert (x : INode) (xs : List INode) :
    (KeyedList.insert INode.key x xs).map INode.entry
      = KeyedList.insert Entry.key x.entry (xs.map INode.entry) := by
  simp only [KeyedList.insert, List.map_append, List.map_cons, List.filter_map]
  rfl

theorem map_erase (k : Slice) (xs : List INode) :
    (KeyedList.erase INode.key k xs).map INode.entry
      = KeyedList.erase Entry.key k (xs.map INode.entry) := by
  simp only [KeyedList.erase, List.filter_map]
  rfl

/-- `put` and `del` on a leaf in order. -/
theorem runOp_entries {n : Node} (h : Sorted INode.key n.inodes) {pgid : Pgid} {op : Op}
    (hop : op.Valid pgid) :
    ∃ n', runOp pgid n op = .ok n' ∧ n'.isLeaf_ = n.isLeaf_ ∧
      n'.inodes.map INode.entry = op.entries (n.inodes.map INode.entry) := by
  cases op with
  | put k v id flags => exact ⟨_, put_eq h v flags hop.2 hop.1, rfl, map_insert _ _⟩
  | del k => exact ⟨_, del_eq h hop, rfl, map_erase _ _⟩

end Node

/-! ### Updates of a tree -/

/-- The nodes of `S` hold the tree of the bucket: in order, every branch with a
child, and no node in two places. -/
structure NodeTree.Holds (S : NodeTree) (h : Heap) (b : Bucket) : Prop where
  isOpen : b.tx_.db_.isSome = true
  root : b.pageNode b.root = .ok (none, some S.ptr)
  fits : S.Fits h b
  nodup : S.ptrs.Nodup
  ordered : (S.contents h).Ordered Entry.key
  nonempty : (S.contents h).BranchesNonempty

theorem NodeTree.Holds.hasTree {S : NodeTree} {h : Heap} {b : Bucket} (hS : S.Holds h b)
    (L : Layout) : HasTree h b L (S.contents h) :=
  ⟨hS.isOpen, _, hS.root, hS.fits.stored L⟩

/-- **Replacing the node of the leaf for a key**, where only entries with the
key change, leaves a tree in order. -/
theorem NodeTree.Holds.setNode {S : NodeTree} {h : Heap} {b : Bucket} (hS : S.Holds h b)
    {key : Slice} {q : NodePtr} (hq : RoutesTo h key S q) {f : List Entry → List Entry}
    (hf : LocalAt Entry.key key f) {nd : Node} (hleaf : nd.isLeaf_ = (h.node q).isLeaf_)
    (hentries : nd.inodes.map INode.entry = f ((h.node q).inodes.map INode.entry)) :
    S.contents (h.setNode q nd) = (S.contents h).update key f ∧ S.Holds (h.setNode q nd) b := by
  have hcontents := hq.contents_setNode hS.nodup hentries
  refine ⟨hcontents, hS.isOpen, hS.root, ?_, hS.nodup, ?_, ?_⟩
  · exact hq.fits_setNode hS.nodup hS.fits (hleaf.trans (hq.isLeaf hS.fits))
  · rw [hcontents]
    exact hS.ordered.update hf hS.nonempty
  · rw [hcontents]
    exact hS.nonempty.update

section

variable (b : Bucket) (vec : Nat → Nat) (fuel : Nat) (pgid : Pgid)

/-- `put` or `del` on the node at which `seek_` has stopped. -/
def runUpdate (h : Heap) (op : Node.Op) : Except Fault Heap := do
  let (stack, _) ← Cursor.seek_ h b vec fuel op.key []
  let ref ← Cursor.back stack
  match ref.node with
  | some q => do
      let nd ← Node.runOp pgid (h.node q) op
      pure (h.setNode q nd)
  | none => throw .nullDeref

def runUpdates (h : Heap) (ops : List Node.Op) : Except Fault Heap :=
  ops.foldlM (runUpdate b vec fuel pgid) h

end

section

variable {S : NodeTree} {h : Heap} {b : Bucket} {fuel : Nat} {pgid : Pgid}

/-- `seek_` leaves the stack of `search`. -/
theorem seek_stack {vec : Nat → Nat} {key : Slice} {stack₀ stack stack' : Cursor.Stack}
    {kv : KeyValue} (hsearch : Cursor.search b vec key fuel h b.root [] = .ok stack)
    (hseek : Cursor.seek_ h b vec fuel key stack₀ = .ok (stack', kv)) : stack' = stack := by
  rw [Cursor.seek_] at hseek
  obtain ⟨-, -, hseek⟩ := ok_of_bind hseek
  rw [hsearch, ok_bind] at hseek
  obtain ⟨ref, -, hseek⟩ := ok_of_bind hseek
  obtain ⟨count, -, hseek⟩ := ok_of_bind hseek
  split at hseek
  · cases hseek
    rfl
  · obtain ⟨kv', -, hseek⟩ := ok_of_bind hseek
    cases hseek
    rfl

/-- **One update of the tree** changes one node of it. -/
theorem runUpdate_spec (hS : S.Holds h b) (hfuel : (S.contents h).size < fuel)
    (vec : Nat → Nat) {op : Node.Op} (hop : op.Valid pgid) :
    ∃ q ∈ S.ptrs, ∃ nd, runUpdate b vec fuel pgid h op = .ok (h.setNode q nd) ∧
      S.contents (h.setNode q nd) = (S.contents h).update op.key op.entries ∧
      S.Holds (h.setNode q nd) b := by
  obtain ⟨stack', es, j, fs, -, hseek, -⟩ :=
    Cursor.seek_of_tree (hS.hasTree nodeLayout) hS.nonempty hS.ordered hfuel vec op.key []
  obtain ⟨q, i, stack, hq, hsearch⟩ := NodeTree.search_routesTo vec S [] hS.root hS.fits
    hS.ordered hS.nonempty (Nat.le_of_lt hfuel)
  obtain rfl := seek_stack hsearch hseek
  obtain ⟨nd, hrun, hleaf, hentries⟩ := Node.runOp_entries (hq.sorted hS.ordered) hop
  refine ⟨q, hq.mem_ptrs, nd, ?_, hS.setNode hq op.localAt hleaf hentries⟩
  simp only [runUpdate, hseek, ok_bind, Cursor.back, pure_bind, hrun]
  rfl

/-- A run of updates keeps the tree and the map in step, and touches no node
outside the tree. -/
theorem runUpdates_spec (vec : Nat → Nat) {ops : List Node.Op} :
    ∀ {h : Heap} {f : KeyedMap Entry.key}, S.Holds h b → (S.contents h).size < fuel →
      Represents (S.contents h).elements f → (∀ op ∈ ops, op.Valid pgid) →
      ∃ h', runUpdates b vec fuel pgid h ops = .ok h' ∧ S.Holds h' b ∧
        (S.contents h').size < fuel ∧
        Represents (S.contents h').elements (ops.foldl Node.Op.bind f) ∧
        h'.mem = h.mem ∧ ∀ r ∉ S.ptrs, h'.node r = h.node r := by
  induction ops with
  | nil =>
      intro h f hS hfuel hf _
      exact ⟨h, rfl, hS, hfuel, hf, rfl, fun _ _ => rfl⟩
  | cons op ops ih =>
      intro h f hS hfuel hf hops
      obtain ⟨q, hq, nd, hrun, hcontents, hS₁⟩ :=
        runUpdate_spec hS hfuel vec (hops op List.mem_cons_self)
      have hsize : (S.contents (h.setNode q nd)).size < fuel := by
        rw [hcontents, size_update]
        exact hfuel
      have hf₁ : Represents (S.contents (h.setNode q nd)).elements (op.bind f) := by
        rw [hcontents, elements_update op.localAt hS.ordered hS.nonempty]
        exact op.represents hf
      obtain ⟨h', hrun', hS', hfuel', hf', hmem, hnode⟩ :=
        ih hS₁ hsize hf₁ fun o ho => hops o (List.mem_cons_of_mem _ ho)
      refine ⟨h', ?_, hS', hfuel', hf', hmem, fun r hr => ?_⟩
      · rw [runUpdates, List.foldlM_cons, hrun]
        exact hrun'
      · rw [hnode r hr, Heap.setNode_node_of_ne]
        rintro rfl
        exact hr hq

/-- **A bucket of nodes is a sorted map over whole runs.**  A run of valid
updates never faults and keeps the tree in order; its entries are the bindings
of the map that the same updates build; memory and the nodes of other trees
stay as they are.  A cursor that then seeks a key stands at the least binding
not below it, and repeated `next` returns the larger ones and then nil. -/
theorem tree_map_of_run {f : KeyedMap Entry.key} (hS : S.Holds h b)
    (hfuel : (S.contents h).size < fuel) (hf : Represents (S.contents h).elements f)
    (vec : Nat → Nat) {ops : List Node.Op} (hops : ∀ op ∈ ops, op.Valid pgid) :
    ∃ h', runUpdates b vec fuel pgid h ops = .ok h' ∧ S.Holds h' b ∧
      Represents (S.contents h').elements (ops.foldl Node.Op.bind f) ∧
      h'.mem = h.mem ∧ (∀ r ∉ S.ptrs, h'.node r = h.node r) ∧
      ∀ key stack₀, ∃ R : List Entry, (R.Pairwise fun x y => x.key < y.key) ∧
        (∀ e, e ∈ R ↔ (ops.foldl Node.Op.bind f).toFun e.key = some e ∧ key ≤ e.key) ∧
        ∃ stack pair, Cursor.seek h' b vec fuel key stack₀ = .ok (stack, pair) ∧
          Cursor.keyValue h' stack = .ok (keyValueOf R.head?) ∧
          ∀ k, Cursor.nexts h' b fuel k stack
            = .ok ((List.range k).map fun j => pairOf R.tail[j]?) := by
  obtain ⟨h', hrun, hS', hfuel', hf', hmem, hnode⟩ := runUpdates_spec vec hS hfuel hf hops
  refine ⟨h', hrun, hS', hf', hmem, hnode, fun key stack₀ => ?_⟩
  obtain ⟨stack, es, i, fs, hseek, hat, hhead, htail⟩ :=
    Cursor.seek_spec (hS'.hasTree nodeLayout) hS'.nonempty hS'.ordered hfuel' vec key stack₀
  refine ⟨Cursor.entriesFrom (S.contents h') key, Cursor.sorted_entriesFrom hS'.ordered,
    fun e => ?_, stack, _, hseek, ?_, fun k => ?_⟩
  · rw [Cursor.mem_entriesFrom, hf'.mem_iff]
  · rw [keyValue_of_at nodeLayout_faithful hat, hhead]
  · rw [Cursor.nexts_spec nodeLayout_faithful (hS'.hasTree _) hS'.nonempty hfuel' k hat, htail]

end

/-- The nodes of `seekHeap`. -/
def seekShape : NodeTree := .branch 1 3 ![.leaf 2, .leaf 3, .leaf 4]

theorem contents_seekShape : seekShape.contents Cursor.seekHeap = Cursor.seekTree := by
  refine congrArg₂ (MultiTree.branch 3) (funext fun i => ?_) (funext fun i => ?_)
  · match i with
    | 0 => rfl
    | 1 => rfl
    | 2 => rfl
  · match i with
    | 0 => rfl
    | 1 => rfl
    | 2 => rfl

theorem holds_seekShape : seekShape.Holds Cursor.seekHeap Cursor.seekBucket := by
  refine ⟨rfl, rfl, ⟨rfl, rfl, fun i => ?_⟩, by decide, ?_, ?_⟩
  · match i with
    | 0 => exact ⟨rfl, rfl⟩
    | 1 => exact ⟨rfl, rfl⟩
    | 2 => exact ⟨rfl, rfl⟩
  · rw [contents_seekShape]
    exact Cursor.ordered_seek
  · rw [contents_seekShape]
    exact Cursor.branchesNonempty_seek

/-- The entries of the tree, bound one by one. -/
def seekMap : KeyedMap Entry.key :=
  ((KeyedMap.empty Entry.key).insert ⟨0, [97], [1]⟩).insert ⟨0, [100], [2]⟩

theorem represents_seekMap :
    Represents (seekShape.contents Cursor.seekHeap).elements seekMap := by
  have hempty : Represents ([] : List Entry) (KeyedMap.empty Entry.key) := Represents.empty
  rw [contents_seekShape]
  exact (hempty.insert ⟨0, [97], [1]⟩).insert ⟨0, [100], [2]⟩

/-- A key for the empty leaf, one that is overwritten and one that is deleted. -/
def seekUpdates : List Node.Op :=
  [.put [98, 1] [7] 0 0, .put [100] [8] 0 1, .del [97]]

theorem tree_map_of_seekUpdates :
    ∃ h', runUpdates Cursor.seekBucket (fun _ => 0) 5 1 Cursor.seekHeap seekUpdates = .ok h' ∧
      Represents (seekShape.contents h').elements (seekUpdates.foldl Node.Op.bind seekMap) := by
  have hvalid : ∀ op ∈ seekUpdates, op.Valid 1 := by simp [seekUpdates, Node.Op.Valid]
  have hfuel : (seekShape.contents Cursor.seekHeap).size < 5 := by
    rw [contents_seekShape]
    decide
  obtain ⟨h', hrun, -, hf, -⟩ :=
    tree_map_of_run holds_seekShape hfuel represents_seekMap (fun _ => 0) hvalid
  exact ⟨h', hrun, hf⟩

end BoltCpp
