/-
BoltCpp/BranchPage.lean

Branch pages: the cycle check of `Node::write` and the branch arm of
`Node::read`.

The check compares a child id with the id of the page being written and stops
the program when they *differ*.  So a branch node is written exactly when
every child id is the page's own (`Node.write_branch`, `Node.write_circular`),
and the error is right only for nodes with children of both kinds
(`Node.writesBranch_iff`).

The branch arm of `read` decodes every element into an `INode` that shadows
the one it appends.  What it appends has no key, so `read` gives up on every
branch page that has an element (`Node.materialises_never`).
-/
import BoltCpp.Cursor
import BoltCpp.PageRead

namespace BoltCpp

open ByteMem ByteMem.Mem

/-- The page holds the branch inodes `xs`. -/
structure Page.HoldsBranch (m : Mem) (p : Nat) (xs : List INode) : Prop where
  flags : Page.flags m p = BranchPageFlag
  count : (Page.count m p).toNat = xs.length
  element : ∀ (i : Nat) (x : INode), xs[i]? = some x →
    BranchPageElement.id m (Page.branchPageElement m p (toUInt16 (i : Int))) = x.id ∧
      BranchPageElement.key m (Page.branchPageElement m p (toUInt16 (i : Int))) = x.key

namespace Node

/-! ### Writing -/

/-- **Encoding.**  A branch node whose child ids are all the page's own is
written in full. -/
theorem write_branch {n : Node} {m : Mem} {p : Nat} (hbranch : n.isLeaf_ = false)
    (hlen : n.inodes.length ≤ 0xffff) (hsize : n.serialisedSize < 2 ^ 31)
    (hflags : Page.flags m p = 0) (hroom : Page.HasRoom m p (image false n.inodes).length)
    (hids : ∀ x ∈ n.inodes, x.id = Page.id m p) :
    ∃ m', n.write m p = .ok m' ∧ Page.HoldsBranch m' p n.inodes := by
  have hwrite := Node.write_eq (n := n) (m := m) (p := p) hlen (by rwa [hbranch])
    (fun _ => hids)
  rw [hbranch] at hwrite
  have hsame := Page.sameHeader_write (withHeader m p n) (p := p) (a := Page.ptr m p)
    (image false n.inodes) hroom
  have hptr := hsame.ptr.trans (ptr_withHeader m p n)
  refine ⟨_, hwrite, ⟨?_, ?_, ?_⟩⟩
  · rw [hsame.flags, flags_withHeader, hbranch, hflags]
    rfl
  · rw [hsame.count, count_withHeader, toNat_toUInt32 (by omega)]
  · intro i x hx
    have hi : i < n.inodes.length := (List.getElem?_eq_some_iff.mp hx).1
    rw [Page.branchPageElement_of_lt _ p (by omega : i < 65536), hptr]
    rw [serialisedSize, hbranch] at hsize
    exact (holdsImage_write _ _ _ _).branchElement (by omega) hx

/-- What writing a branch node is for: only a child that is the page itself
is an error, and any other node is written in full. -/
def WritesBranch (n : Node) (m : Mem) (p : Nat) : Prop :=
  (n.write m p = .error (.exit "write: circular dependency occured\n") ↔
    ∃ x ∈ n.inodes, x.id = Page.id m p) ∧
  ((¬ ∃ x ∈ n.inodes, x.id = Page.id m p) →
    ∃ m', n.write m p = .ok m' ∧ Page.HoldsBranch m' p n.inodes)

/-- **When the cycle check is right.**  The node has no children, or it has
children of both kinds: the error is then due, although it is raised by the
other child. -/
theorem writesBranch_iff {n : Node} {m : Mem} {p : Nat} (hbranch : n.isLeaf_ = false)
    (hlen : n.inodes.length ≤ 0xffff) (hsize : n.serialisedSize < 2 ^ 31)
    (hflags : Page.flags m p = 0) (hroom : Page.HasRoom m p (image false n.inodes).length) :
    WritesBranch n m p ↔
      n.inodes = [] ∨
        (∃ x ∈ n.inodes, x.id = Page.id m p) ∧ ∃ x ∈ n.inodes, x.id ≠ Page.id m p := by
  have hcircular : (∃ x ∈ n.inodes, x.id ≠ Page.id m p) →
      n.write m p = .error (.exit "write: circular dependency occured\n") :=
    Node.write_circular hbranch hlen (by rwa [hbranch])
  have hfine : (∀ x ∈ n.inodes, x.id = Page.id m p) →
      ∃ m', n.write m p = .ok m' ∧ Page.HoldsBranch m' p n.inodes :=
    write_branch hbranch hlen hsize hflags hroom
  constructor
  · rintro ⟨herror, -⟩
    rcases hxs : n.inodes with _ | ⟨x, rest⟩
    · exact Or.inl rfl
    · refine Or.inr ?_
      rw [hxs] at herror hcircular hfine
      -- one child of either kind forces a child of the other kind
      by_cases hother : ∃ y ∈ x :: rest, y.id ≠ Page.id m p
      · exact ⟨herror.mp (hcircular hother), hother⟩
      · push Not at hother
        obtain ⟨m', hok, -⟩ := hfine hother
        have habort := herror.mpr ⟨x, by simp, hother x (by simp)⟩
        rw [hok] at habort
        cases habort
  · rintro (hnil | ⟨hself, hother⟩)
    · obtain ⟨m', hok, hholds⟩ := hfine (by simp [hnil])
      refine ⟨?_, fun _ => ⟨m', hok, hholds⟩⟩
      rw [hok, hnil]
      simp
    · exact ⟨⟨fun _ => hself, fun _ => hcircular hother⟩, fun h => absurd hself h⟩

/-- A branch node; `ids` are the child ids, the keys are 0, 1, 2, … -/
def sampleBranch (ids : List Pgid) : Node where
  isLeaf_ := false
  unbalanced_ := false
  key_ := []
  id_ := 0
  parent_ := none
  inodes := ids.mapIdx fun i id => { id := id, key := [UInt8.ofNat i] }

theorem writesBranch_sample : WritesBranch (sampleBranch [3, 7]) sampleMem 4096 :=
  (writesBranch_iff rfl (by decide) (by decide) rfl (Or.inr (by decide))).mpr
    (Or.inr (by decide))

/-- Page 7 with the single child 3 is refused. -/
theorem write_branch_refused :
    (∀ x ∈ (sampleBranch [3]).inodes, x.id ≠ Page.id sampleMem 4096) ∧
      (sampleBranch [3]).write sampleMem 4096
        = .error (.exit "write: circular dependency occured\n") ∧
      ¬ WritesBranch (sampleBranch [3]) sampleMem 4096 := by
  have hother : ∀ x ∈ (sampleBranch [3]).inodes, x.id ≠ Page.id sampleMem 4096 := by decide
  have herror : (sampleBranch [3]).write sampleMem 4096
      = .error (.exit "write: circular dependency occured\n") := rfl
  refine ⟨hother, herror, fun h => ?_⟩
  obtain ⟨x, hx, hself⟩ := h.1.mp herror
  exact hother x hx hself

/-! ### Reading -/

/-- The node has the children of the page, in order. -/
structure KeepsContent (n : Node) (m : Mem) (p : Nat) : Prop where
  isLeaf : n.isLeaf_ = false
  count : n.inodes.length = (Page.count m p).toNat
  element : ∀ (i : Nat) (x : INode), n.inodes[i]? = some x →
    x.id = BranchPageElement.id m (Page.branchPageElement m p (toUInt16 (i : Int))) ∧
      x.key = BranchPageElement.key m (Page.branchPageElement m p (toUInt16 (i : Int)))

/-- The child id at the last index, where `last_` goes on. -/
def lastChildId (h : Heap) (elem : ElemRef) : Except Fault Pgid := do
  let count ← elem.count h
  ElemRef.childId h { elem with index := count - 1 }

/-- The descents visit the same child ids through the node `q` as through the
page `p`: `first_` at index 0, `last_` at the last index, and `search` where
the key leads it. -/
structure SameDescents (h : Heap) (q : NodePtr) (p : Nat) : Prop where
  first_ : ElemRef.childId h ⟨none, some q, 0⟩ = ElemRef.childId h ⟨some p, none, 0⟩
  last_ : lastChildId h ⟨none, some q, 0⟩ = lastChildId h ⟨some p, none, 0⟩
  search : ∀ vec key, (Cursor.searchNode (h.node q) key).map Prod.snd
    = (Cursor.searchPage h.mem p vec key).map Prod.snd

/-- What reading a branch page is for: the content is kept, so a cursor that
descends finds the node as it finds the page. -/
def Materialises (n₀ : Node) (m : Mem) (p : Nat) : Prop :=
  ∃ n₁, n₀.read m p = .ok n₁ ∧ KeepsContent n₁ m p ∧
    ∀ h q, h.mem = m → h.node q = n₁ → SameDescents h q p

/-- A node without children has none at index 0. -/
theorem childId_of_empty {h : Heap} {q : NodePtr} (hq : (h.node q).inodes = []) :
    ElemRef.childId h ⟨none, some q, 0⟩ = .error .outOfRange := by
  simp only [ElemRef.childId, hq]
  rfl

/-- **No branch page is materialised.**  One with an element stops the
program.  One without is read, and its content is kept; but where `first_` gets
an id behind the array from the page, it is out of range of the node. -/
theorem materialises_never (n₀ : Node) {m : Mem} {p : Nat}
    (hflags : Page.flags m p &&& LeafPageFlag = 0) :
    ¬ Materialises n₀ m p ∧
      ((∃ n₁, n₀.read m p = .ok n₁ ∧ KeepsContent n₁ m p) ↔ Page.count m p = 0) := by
  have hleaf : decide (Page.flags m p &&& LeafPageFlag ≠ 0) = false := by simp [hflags]
  have hcount : ∀ n₁, n₀.read m p = .ok n₁ → Page.count m p = 0 := by
    intro n₁ hread
    by_contra hcount
    have herror := Node.read_of_first_error n₀ hcount
      (by rw [hleaf]; exact readInode_branch m p 0)
    rw [hread] at herror
    cases herror
  refine ⟨?_, fun ⟨n₁, hread, _⟩ => hcount n₁ hread, fun hcount => ?_⟩
  · rintro ⟨n₁, hread, hkeeps, hdescents⟩
    -- the node is empty, and so is the page
    have hempty : n₁.inodes = [] := by
      have hlen := hkeeps.count
      rw [hcount n₁ hread] at hlen
      exact List.length_eq_zero_iff.mp hlen
    have hfirst := (hdescents ⟨m, fun _ => n₁⟩ 0 rfl rfl).first_
    rw [childId_of_empty hempty] at hfirst
    cases hfirst
  · refine ⟨_, read_of_count_zero n₀ hcount, hleaf, ?_, ?_⟩
    · rw [hcount]
      rfl
    · intro i x hx
      simp at hx

/-- A branch page with the children `ids`. -/
def sampleBranchMem (ids : List Pgid) : Mem :=
  (Page.setCount (Page.construct (fun _ => 0) 4096 7 BranchPageFlag 4128) 4096
    (toUInt32 ids.length)).write 4128 (image false (sampleBranch ids).inodes)

theorem materialises_sample :
    ¬ Materialises (sampleBranch []) (sampleBranchMem []) 4096 ∧
      ((∃ n₁, (sampleBranch []).read (sampleBranchMem []) 4096 = .ok n₁ ∧
        KeepsContent n₁ (sampleBranchMem []) 4096) ↔
          Page.count (sampleBranchMem []) 4096 = 0) :=
  materialises_never (sampleBranch []) (by decide)

/-- A branch page with one child stops the program. -/
theorem read_branch_aborts :
    Page.HoldsBranch (sampleBranchMem [3]) 4096 (sampleBranch [3]).inodes ∧
      (sampleBranch []).read (sampleBranchMem [3]) 4096
        = .error (.exit "read: zero-length inode key\n") ∧
      ¬ Materialises (sampleBranch []) (sampleBranchMem [3]) 4096 := by
  have herror : (sampleBranch []).read (sampleBranchMem [3]) 4096
      = .error (.exit "read: zero-length inode key\n") := by decide
  refine ⟨⟨by decide, by decide, ?_⟩, herror, ?_⟩
  · intro i x hx
    obtain ⟨rfl, rfl⟩ : i = 0 ∧ x = { id := 3, key := [0] } := by
      have hi : i < 1 := (List.getElem?_eq_some_iff.mp hx).1
      obtain rfl : i = 0 := by omega
      exact ⟨rfl, (Option.some.inj hx).symm⟩
    decide
  · rintro ⟨n₁, hread, -⟩
    rw [herror] at hread
    cases hread

end Node

end BoltCpp
