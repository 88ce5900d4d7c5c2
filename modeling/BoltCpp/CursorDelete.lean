/-
BoltCpp/CursorDelete.lean

`deleteCurrent` and the walk to the node of the cursor (`cursor.cpp`).

`Cursor::node` begins with an assertion that the stack has ten references or
more.  Past it, a leaf that is a node is returned at once.  For a leaf page the
node must be found from the root down, and that never succeeds: the test of the
root's node is the wrong way round, and the loop over the stack has no end
(`nodeLoop_error`).  So an element is deleted exactly if the cursor is ten
levels deep and on a node (`deletesCurrent_iff`).

`Bucket::node` is a stub, and `materialise` stands for it as in `Siblings`.
-/
import BoltCpp.Database
import BoltCpp.EmptyLeaves
import BoltCpp.Siblings

namespace BoltCpp

open MultiTree

namespace Cursor

/-! ### The node of the cursor -/

section

variable (h : Heap) (materialise : Pgid → Option NodePtr → Option NodePtr)

/-- One pass of the loop of `node`. -/
def nodeStep (stack : Stack) (i : UInt64) (n : Option NodePtr) :
    Except Fault (Option NodePtr) :=
  match n with
  | none => throw .nullDeref
  | some n =>
      if (h.node n).isLeaf_ then throw (.assertion "!n->isLeaf()")
      else do
        let ref ← vecAt stack.reverse i.toNat
        Node.childAt h materialise n ref.index

/-- The loop of `node`.  The index is a `std::size_t`. -/
def nodeLoop (stack : Stack) : Nat → UInt64 → Option NodePtr → Except Fault (Option NodePtr)
  | 0, _, _ => throw .outOfFuel
  | fuel + 1, i, n =>
      if i ≥ 0 then do
        let n ← nodeStep h materialise stack i n
        nodeLoop stack fuel (i - 1) n
      else pure n

/-- Where the second half of `node` starts.  The root's node is replaced if
there is one. -/
def startNode (root : ElemRef) : Except Fault (Option NodePtr) :=
  match root.node with
  | some _ =>
      match root.page with
      | some p => pure (materialise (Page.id h.mem p) none)
      | none => throw .nullDeref
  | none => pure none

/-- The second half of `node`, down from the root. -/
def nodeFromRoot (fuel : Nat) (stack : Stack) : Except Fault NodePtr := do
  let root ← vecAt stack.reverse 0
  let n ← startNode h materialise root
  let n ← (if stack.length > 1 then
      nodeLoop h materialise stack fuel (UInt64.ofNat (stack.length - 1)) n
    else pure n)
  match n with
  | none => throw .nullDeref
  | some n => if (h.node n).isLeaf_ then pure n else throw (.assertion "n->isLeaf()")

def node (fuel : Nat) (stack : Stack) : Except Fault NodePtr :=
  if stack.length > 9 then do
    let ref ← back stack
    match ref.node with
    | some n => do
        let isLeaf ← ref.isLeaf h
        if isLeaf then pure n else nodeFromRoot h materialise fuel stack
    | none => nodeFromRoot h materialise fuel stack
  else throw (.assertion "this->stack_.size() > 9")

/-- **The loop never comes to an end**: its index is never negative. -/
theorem nodeLoop_error (stack : Stack) (fuel : Nat) :
    ∀ (i : UInt64) (n : Option NodePtr),
      ∃ e, nodeLoop h materialise stack fuel i n = .error e := by
  induction fuel with
  | zero => exact fun _ _ => ⟨_, rfl⟩
  | succ fuel ih =>
      intro i n
      rw [nodeLoop, if_pos UInt64.zero_le]
      rcases nodeStep h materialise stack i n with e | n'
      · exact ⟨e, rfl⟩
      · exact ih (i - 1) n'

theorem nodeFromRoot_error (fuel : Nat) {stack : Stack} (hlen : stack.length > 1) :
    ∃ e, nodeFromRoot h materialise fuel stack = .error e := by
  rw [nodeFromRoot]
  rcases vecAt stack.reverse 0 with e | root
  · exact ⟨e, rfl⟩
  rw [ok_bind]
  rcases startNode h materialise root with e | n
  · exact ⟨e, rfl⟩
  rw [ok_bind, if_pos hlen]
  obtain ⟨e, he⟩ :=
    nodeLoop_error h materialise stack fuel (UInt64.ofNat (stack.length - 1)) n
  exact ⟨e, by rw [he]; rfl⟩

/-- **When `node` returns**, called on a leaf: if the stack has ten references
or more and the leaf is a node. -/
theorem node_of_leaf (fuel : Nat) {ref : ElemRef} (rest : Stack)
    (hleaf : ref.isLeaf h = .ok true) :
    (∃ n, (ref :: rest).length > 9 ∧ ref.node = some n ∧
        node h materialise fuel (ref :: rest) = .ok n) ∨
      (¬ ((ref :: rest).length > 9 ∧ ref.node.isSome = true) ∧
        ∃ e, node h materialise fuel (ref :: rest) = .error e) := by
  by_cases hlen : (ref :: rest).length > 9
  · rcases hnode : ref.node with - | n
    · -- the walk from the root
      obtain ⟨e, he⟩ := nodeFromRoot_error h materialise fuel
        (show (ref :: rest).length > 1 by omega)
      refine Or.inr ⟨fun h => (by cases h.2), e, ?_⟩
      rw [node, if_pos hlen, back, pure_bind, hnode, he]
    · refine Or.inl ⟨n, hlen, rfl, ?_⟩
      rw [node, if_pos hlen, back, pure_bind, hnode]
      simp only [hleaf, ok_bind, if_true]
      rfl
  · exact Or.inr ⟨fun h => hlen h.1, _, by rw [node, if_neg hlen]; rfl⟩

end

/-! ### Deletion -/

/-- How `deleteCurrent` can end without returning. -/
inductive DeleteStop where
  /-- `std::runtime_error` -/
  | threw (what : String)
  /-- `std::bad_optional_access` -/
  | noKey
  | fault (f : Fault)
  deriving DecidableEq, Repr

/-- A call that changes nothing. -/
def reading {α : Type} (x : Except Fault α) : EStateM DeleteStop Heap α := fun h =>
  match x with
  | .ok a => .ok a h
  | .error e => .error (.fault e) h

theorem reading_ok {α : Type} (a : α) (h : Heap) : reading (.ok a) h = .ok a h := rfl

theorem reading_error {α : Type} (e : Fault) (h : Heap) :
    reading (.error e : Except Fault α) h = .error (.fault e) h := rfl

def deleteCurrent (tx : Transaction) (materialise : Pgid → Option NodePtr → Option NodePtr)
    (fuel : Nat) (stack : Stack) : EStateM DeleteStop Heap Unit :=
  if tx.db_.isNone then throw (.threw "transaction was closed")
  else if !tx.writable_ then throw (.threw "transaction was not writable")
  else do
    let h ← get
    let (key, _, flags) ← reading (keyValue h stack)
    if flags &&& BucketLeafFlag ≠ 0 then throw (.threw "incompatible value")
    else do
      let n ← reading (node h materialise fuel stack)
      match key with
      | none => throw .noKey
      | some key => do
          let nd ← reading ((h.node n).del key)
          set { h with node := Function.update h.node n nd }

section

variable {h : Heap} {tx : Transaction} {materialise : Pgid → Option NodePtr → Option NodePtr}
  {fuel : Nat} {stack : Stack} {key : Slice} {value : Option Slice} {flags : UInt32}

/-- `deleteCurrent` refuses: a closed or read-only transaction, or a bucket. -/
def Refuses (tx : Transaction) (flags : UInt32) : Prop :=
  tx.db_.isNone = true ∨ tx.writable_ = false ∨ flags &&& BucketLeafFlag ≠ 0

/-- `deleteCurrent` once it has looked at the element. -/
theorem deleteCurrent_open (materialise : Pgid → Option NodePtr → Option NodePtr) (fuel : Nat)
    (hopen : ¬ tx.db_.isNone = true) (hwriter : tx.writable_ = true)
    (hkv : keyValue h stack = .ok (some key, value, flags)) :
    deleteCurrent tx materialise fuel stack h
      = if flags &&& BucketLeafFlag ≠ 0 then .error (.threw "incompatible value") h
        else
          match node h materialise fuel stack with
          | .error e => .error (.fault e) h
          | .ok n =>
              match (h.node n).del key with
              | .error e => .error (.fault e) h
              | .ok nd => .ok () { h with node := Function.update h.node n nd } := by
  have hget : (get : EStateM DeleteStop Heap Heap) h = .ok h h := rfl
  have hread : reading (keyValue h stack) h = .ok (some key, value, flags) h := by
    rw [hkv, reading_ok]
  rw [deleteCurrent, if_neg hopen, hwriter, Bool.not_true, if_neg Bool.false_ne_true,
    bind_ok hget, bind_ok hread]
  by_cases hbucket : flags &&& BucketLeafFlag ≠ 0
  · simp only [if_pos hbucket]
    rfl
  simp only [if_neg hbucket]
  rcases hnode : node h materialise fuel stack with e | n
  · exact bind_error (reading_error e h)
  rw [bind_ok (reading_ok n h)]
  rcases hdel : (h.node n).del key with e | nd
  · simp only [hdel]
    exact bind_error (reading_error e h)
  · simp only [hdel]
    exact bind_ok (reading_ok nd h)

theorem deleteCurrent_refuses (hkv : keyValue h stack = .ok (some key, value, flags))
    (hrefuses : Refuses tx flags) :
    ∃ what, deleteCurrent tx materialise fuel stack h = .error (.threw what) h := by
  by_cases hclosed : tx.db_.isNone = true
  · exact ⟨_, by rw [deleteCurrent, if_pos hclosed]; rfl⟩
  rcases hwritable : tx.writable_
  · refine ⟨"transaction was not writable", ?_⟩
    rw [deleteCurrent, if_neg hclosed, hwritable, Bool.not_false, if_pos rfl]
    rfl
  have hbucket : flags &&& BucketLeafFlag ≠ 0 :=
    (hrefuses.resolve_left hclosed).resolve_left (by simp [hwritable])
  exact ⟨_, by rw [deleteCurrent_open _ _ hclosed hwritable hkv, if_pos hbucket]⟩

/-! ### What it is for -/

/-- The node of a reference, its own or that of its page. -/
def NodeOf (h : Heap) (materialise : Pgid → Option NodePtr → Option NodePtr) (ref : ElemRef)
    (n : NodePtr) : Prop :=
  ref.node = some n ∨
    ∃ p parent, ref.node = none ∧ ref.page = some p ∧ materialise (Page.id h.mem p) parent = some n

/-- The key is gone from the node `n`, which is marked; nothing else has
changed. -/
structure Removed (key : Slice) (n : NodePtr) (h h' : Heap) : Prop where
  mem : h'.mem = h.mem
  others : ∀ m, m ≠ n → h'.node m = h.node m
  node : h'.node n = { h.node n with
    inodes := KeyedList.erase INode.key key (h.node n).inodes
    unbalanced_ := true }

/-- What `deleteCurrent` is for, on an element with this key and these flags:
it removes the key from the node of the leaf, or throws and changes nothing. -/
def DeletesCurrent (h : Heap) (tx : Transaction)
    (materialise : Pgid → Option NodePtr → Option NodePtr) (fuel : Nat) (stack : Stack)
    (key : Slice) (flags : UInt32) : Prop :=
  (Refuses tx flags →
    ∃ what, deleteCurrent tx materialise fuel stack h = .error (.threw what) h) ∧
  (¬ Refuses tx flags →
    ∃ h' ref n, deleteCurrent tx materialise fuel stack h = .ok () h' ∧
      stack.head? = some ref ∧ NodeOf h materialise ref n ∧ Removed key n h h')

/-- Ten levels deep, on a node, with a key that is not empty. -/
structure Deletable (stack : Stack) (key : Slice) : Prop where
  deep : 9 < stack.length
  onNode : ∃ ref, stack.head? = some ref ∧ ref.node.isSome = true
  key : key ≠ []

/-- In a leaf with ascending keys `del` removes one entry. -/
theorem del_of_stored {b : Bucket} {L : Layout} {es : List Entry} {e : Entry}
    {p : Option Nat} {n : NodePtr} (hs : Stored h b L (.leaf es) (p, some n))
    (hsorted : KeyedList.Sorted Entry.key es) (he : e ∈ es) (hkey : e.key ≠ []) :
    (h.node n).del e.key = .ok { h.node n with
      inodes := KeyedList.erase INode.key e.key (h.node n).inodes
      unbalanced_ := true } := by
  have hentries : (h.node n).inodes.map INode.entry = es := hs.2
  have hnode : KeyedList.Sorted INode.key (h.node n).inodes := by
    rw [← hentries, KeyedList.Sorted, List.pairwise_map] at hsorted
    exact hsorted
  have hexact : (h.node n).exact e.key = true := by
    rw [← hentries, List.mem_map] at he
    obtain ⟨x, hx, rfl⟩ := he
    exact (Node.exact_iff hnode _).mpr ⟨x, hx, rfl⟩
  rw [Node.del_eq hnode hkey, hexact, Bool.true_or]

/-- From a position on an entry. -/
theorem deletesCurrent_of_at {b : Bucket} {L : Layout} {t : Tree} {es : List Entry} {i : Nat}
    {fs : List TreeFrame} (hL : L.Faithful) (hat : At h b L t stack es i fs)
    (hsorted : KeyedList.Sorted Entry.key es)
    (hkv : keyValue h stack = .ok (some key, value, flags)) :
    DeletesCurrent h tx materialise fuel stack key flags ↔
      Refuses tx flags ∨ Deletable stack key := by
  by_cases hrefuses : Refuses tx flags
  · exact iff_of_true ⟨fun _ => deleteCurrent_refuses hkv hrefuses, fun h => absurd hrefuses h⟩
      (Or.inl hrefuses)
  have hopen : ¬ tx.db_.isNone = true := fun h => hrefuses (Or.inl h)
  have hwriter : tx.writable_ = true := by
    by_contra h
    exact hrefuses (Or.inr (Or.inl (by simpa using h)))
  have hplain : ¬ flags &&& BucketLeafFlag ≠ 0 := fun h => hrefuses (Or.inr (Or.inr h))
  have heq := deleteCurrent_open materialise fuel hopen hwriter hkv
  rw [if_neg hplain] at heq
  -- the entry at the position
  have hentry := (keyValue_of_at hL hat).symm.trans hkv
  rcases hget : es[i]? with - | e
  · rw [hget] at hentry
    cases hentry
  rw [hget] at hentry
  cases hentry
  rw [DeletesCurrent, heq, or_iff_right hrefuses]
  rcases hat.linked with - | ⟨hr, hrest⟩
  rename_i ref rest
  rcases node_of_leaf h materialise fuel rest
    (isLeaf_of_stored_leaf hr.stored) with ⟨n, hdeep, hn, hnode⟩ | ⟨hnot, error, herror⟩
  · rw [hnode]
    by_cases hkey : e.key = []
    · -- `del` refuses an empty key
      have hdel : (h.node n).del e.key = .error (.exit "del: zero-length key\n") := by
        rw [hkey]
        rfl
      refine iff_of_false (fun hdeletes => ?_) fun hd => hd.key hkey
      obtain ⟨h', _, _, hrun, -⟩ := hdeletes.2 hrefuses
      simp only [hdel] at hrun
      cases hrun
    · have hstored := hr.stored
      rw [hn] at hstored
      have hdel := del_of_stored hstored hsorted (List.mem_of_getElem? hget) hkey
      simp only [hdel]
      refine iff_of_true ⟨fun h => absurd h hrefuses, fun _ => ⟨_, ref, n, rfl, rfl, Or.inl hn, ?_⟩⟩
        ⟨hdeep, ⟨ref, rfl, by rw [hn]; rfl⟩, hkey⟩
      refine ⟨rfl, fun m hm => Function.update_of_ne hm _ _, Function.update_self _ _ _⟩
  · rw [herror]
    refine iff_of_false (fun hdeletes => ?_) fun hd => ?_
    · obtain ⟨h', _, _, hrun, -⟩ := hdeletes.2 hrefuses
      cases hrun
    · obtain ⟨ref', hhead, hsome⟩ := hd.onNode
      cases hhead
      exact hnot ⟨hd.deep, hsome⟩

/-- **When `deleteCurrent` deletes.**  Wherever calls have left the cursor on an
element, in a tree whose leaves have ascending keys: it does what it is for
exactly if it has to refuse, or the element is at least ten levels deep and in
a node, and its key is not empty. -/
theorem deletesCurrent_iff {b : Bucket} {t : Tree} {k : Nat} (ht : HasTree h b fileLayout t)
    (hb : t.BranchesNonempty) (htyped : PagesTyped h b)
    (hsorted : ∀ es ∈ t.leaves, KeyedList.Sorted Entry.key es) (hfuel : Enough t k) {c : Call}
    (hc : c.Starts) {cs : List Call} (hclear : ∀ c' ∈ c :: cs, c'.Clear h b) {stack₀ : Stack}
    (hrun : calls h b k (c :: cs) stack₀ = .ok stack)
    (hkv : keyValue h stack = .ok (some key, value, flags)) :
    DeletesCurrent h tx materialise fuel stack key flags ↔
      Refuses tx flags ∨ Deletable stack key := by
  obtain ⟨es, i, fs, hat, -⟩ :=
    at_of_calls ht hb htyped hfuel hc hclear hrun ⟨_, hkv, rfl⟩
  have hmem : es ∈ t.leaves := by
    rw [hat.path.leaves_eq]
    simp
  exact deletesCurrent_of_at fileLayout_faithful hat (hsorted es hmem) hkv

end

/-- Node `n` has the child `n + 1`, and node 10 is a leaf. -/
def chainHeap : Heap where
  mem _ := 0
  node n :=
    if n < 10 then ⟨false, false, [], 0, none, [{ id := UInt64.ofNat (n + 1), key := [97] }]⟩
    else ⟨true, false, [], 0, none, [{ key := [98] }, { key := [99], value := [1] }]⟩

def chainBucket : Bucket where
  root := 1
  tx_ := { db_ := some { data_ := 65536, pageSize_ := 4096 }, pages_ := fun _ => none }
  page := none
  rootNode := none
  nodes id := some id.toNat

/-- The tree with `k` levels of branches. -/
def chainTree : Nat → Tree
  | 0 => .leaf [⟨0, [98], []⟩, ⟨0, [99], [1]⟩]
  | k + 1 => .branch 1 (fun _ => [97]) fun _ => chainTree k

/-- The transaction of the bucket, as a writer. -/
def writer (b : Bucket) : Transaction where
  db_ := b.tx_.db_
  pages_ := b.tx_.pages_
  writable_ := true
  managed_ := false
  meta_ := none
  stats_ := ⟨0, 0, 0, 0, 0, 0, 0, 0, 0, 0, 0, 0⟩

theorem stored_chain (k : Nat) (hk : k ≤ 10) :
    Stored chainHeap chainBucket fileLayout (chainTree k) (none, some (10 - k)) := by
  induction k with
  | zero => exact ⟨rfl, rfl⟩
  | succ k ih =>
      have hnode : chainHeap.node (10 - (k + 1))
          = ⟨false, false, [], 0, none, [{ id := UInt64.ofNat (10 - k), key := [97] }]⟩ := by
        have hid : 10 - (k + 1) + 1 = 10 - k := by omega
        rw [← hid]
        exact if_pos (show 10 - (k + 1) < 10 by omega)
      have hid : (UInt64.ofNat (10 - k)).toNat = 10 - k := by
        have hlt : 10 - k < 2 ^ 64 := by omega
        rw [UInt64.toNat_ofNat', Nat.mod_eq_of_lt hlt]
      refine ⟨fun _ => UInt64.ofNat (10 - k), ⟨by rw [hnode], by rw [hnode]; rfl⟩, fun _ => ?_⟩
      refine ⟨(none, some (10 - k)), ?_, ih (by omega)⟩
      show Except.ok (none, some (UInt64.ofNat (10 - k)).toNat) = _
      rw [hid]

theorem branchesNonempty_chain (k : Nat) : (chainTree k).BranchesNonempty := by
  induction k with
  | zero => trivial
  | succ k ih => exact ⟨Nat.one_pos, fun _ => ih⟩

theorem sorted_chain (k : Nat) :
    ∀ es ∈ (chainTree k).leaves, KeyedList.Sorted Entry.key es := by
  induction k with
  | zero =>
      intro es hes
      obtain rfl := List.mem_singleton.mp hes
      show List.Pairwise _ _
      decide
  | succ k ih =>
      intro es hes
      simp only [chainTree, leaves, List.mem_flatten, List.mem_ofFn] at hes
      obtain ⟨_, ⟨_, rfl⟩, hes⟩ := hes
      exact ih es hes

theorem pagesTyped_chain : PagesTyped chainHeap chainBucket := by
  intro p hp
  cases hp with
  | root hp => cases hp
  | child _ _ _ hp => cases hp

/-- On the second entry of the leaf. -/
def chainStack : Stack :=
  ⟨none, some 10, 1⟩ :: (List.range 9).reverse.map fun i => ⟨none, some (i + 1), 0⟩

theorem calls_chainStack :
    calls chainHeap chainBucket 20 [.first, .next] [] = .ok chainStack := by
  decide +kernel

theorem enough_chain : Enough (chainTree 9) 20 := by
  show (chainTree 9).size + (chainTree 9).width * (chainTree 9).weight < 20
  decide

theorem hasTree_chain : HasTree chainHeap chainBucket fileLayout (chainTree 9) :=
  ⟨rfl, (none, some 1), rfl, stored_chain 9 (by decide)⟩

/-- Ten levels deep the second entry of the leaf is deleted. -/
theorem deletesCurrent_sample :
    DeletesCurrent chainHeap (writer chainBucket) (fun _ _ => none) 0 chainStack [99] 0 := by
  have hclear : ∀ c ∈ [Call.first, Call.next], c.Clear chainHeap chainBucket := by
    simp only [List.forall_mem_cons]
    exact ⟨trivial, trivial, fun _ h => (by cases h)⟩
  have hkv : keyValue chainHeap chainStack = .ok (some [99], some [1], 0) := by decide +kernel
  refine (deletesCurrent_iff hasTree_chain (branchesNonempty_chain 9) pagesTyped_chain
    (sorted_chain 9) enough_chain starts_first hclear calls_chainStack hkv).mpr (Or.inr ?_)
  exact ⟨by decide, ⟨_, rfl, rfl⟩, by decide⟩

/-- Two levels deep, on a page, the assertion fails. -/
theorem deleteCurrent_asserts (fuel : Nat) :
    deleteCurrent (writer sampleBucket) (fun _ _ => none) fuel sampleStack (sampleHeap [])
      = .error (.fault (.assertion "this->stack_.size() > 9")) (sampleHeap []) := by
  rw [deleteCurrent_open _ fuel (by decide) rfl keyValue_sampleStack, if_neg (by decide)]
  rfl

theorem deleteCurrent_fails :
    AnyTree (sampleHeap []) sampleBucket (sampleTree []) ∧
      (∀ es ∈ (sampleTree []).leaves, KeyedList.Sorted Entry.key es) ∧
      calls (sampleHeap []) sampleBucket 20 [.first, .next] [] = .ok sampleStack ∧
      keyValue (sampleHeap []) sampleStack = .ok (some [98, 0], some [1, 2], 0) ∧
      ∀ fuel, deleteCurrent (writer sampleBucket) (fun _ _ => none) fuel sampleStack
          (sampleHeap []) = .error (.fault (.assertion "this->stack_.size() > 9")) (sampleHeap []) ∧
        ¬ DeletesCurrent (sampleHeap []) (writer sampleBucket) (fun _ _ => none) fuel sampleStack
          [98, 0] 0 := by
  refine ⟨anyTree_sample, ?_, calls_sampleStack, keyValue_sampleStack, fun fuel =>
    ⟨deleteCurrent_asserts fuel, fun hdeletes => ?_⟩⟩
  · show ∀ es ∈ (sampleTree []).leaves, List.Pairwise _ es
    decide
  · have hwrites : ¬ Refuses (writer sampleBucket) 0 := by
      rintro (hclosed | hreader | hbucket)
      · cases hclosed
      · cases hreader
      · exact hbucket rfl
    obtain ⟨h', _, _, hrun, -⟩ := hdeletes.2 hwrites
    rw [deleteCurrent_asserts] at hrun
    cases hrun

end Cursor

end BoltCpp
