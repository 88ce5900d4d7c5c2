/-
BoltCpp/Unfold.lean

Which buckets hold a tree.

The results on cursors are about buckets that hold a tree.  Whether a bucket
does can be told from its pages and nodes: start at the root, and every page id
leads somewhere, every count is one of a page or node in order, and no way down
goes on forever (`Walkable`).  A page that is reached on two ways is unfolded
twice; the tree is the only one (`walkable_iff`).
-/
import BoltCpp.Isolation

namespace BoltCpp

open ByteMem

namespace Cursor

/-- The second one is a branch, and the first one is where a child id of it
leads. -/
inductive ChildOf (h : Heap) (b : Bucket) : Bucket.PageNode → Bucket.PageNode → Prop
  | child {ref : ElemRef} {c : Int} {id : Pgid} {s : Bucket.PageNode}
      (hleaf : ref.isLeaf h = .ok false) (hcount : ref.count h = .ok c) (hpos : 0 ≤ ref.index)
      (hlt : ref.index < c) (hid : ref.childId h = .ok id) (hs : b.pageNode id = .ok s) :
      ChildOf h b s (ref.page, ref.node)

/-- From the root down everything is in order. -/
structure Walkable (h : Heap) (b : Bucket) : Prop where
  isOpen : b.tx_.db_.isSome = true
  root : ∃ s, b.pageNode b.root = .ok s
  /-- there is a page or a node -/
  here : ∀ ref : ElemRef, Reached h b (ref.page, ref.node) → ∃ c, ref.count h = .ok c
  sound : Sound h b
  /-- every child id leads to one -/
  child : ∀ (ref : ElemRef) (c : Int) (id : Pgid), Reached h b (ref.page, ref.node) →
    ref.isLeaf h = .ok false → ref.count h = .ok c → 0 ≤ ref.index → ref.index < c →
    ref.childId h = .ok id → ∃ s, b.pageNode id = .ok s
  /-- every way down ends -/
  ends : ∀ s, b.pageNode b.root = .ok s → Acc (ChildOf h b) s

variable {h : Heap} {b : Bucket} {s : Bucket.PageNode} {n : Nat}

/-! ### From a tree -/

theorem acc_of_stored {L : Layout} (hL : L.Faithful) {u : Tree} :
    ∀ {s : Bucket.PageNode}, Stored h b L u s → Acc (ChildOf h b) s := by
  induction u with
  | leaf es =>
      refine fun hst => .intro _ fun s' hs' => ?_
      cases hs' with
      | child hleaf =>
          rw [isLeaf_of_stored_leaf hst] at hleaf
          cases hleaf
  | branch n sep child ih =>
      refine fun hst => .intro _ fun s' hs' => ?_
      cases hs' with
      | @child ref c id _ hleaf hcount hpos hlt hid hs =>
          have hwidth : c = (n : Int) :=
            Except.ok.inj (hcount.symm.trans (count_of_stored hL hst))
          obtain ⟨id', s'', hid', hs'', hst'⟩ :=
            childId_of_stored hL hst ⟨ref.index.toNat, by omega⟩ (by
              show ref.index = (ref.index.toNat : Int)
              omega)
          cases hid.symm.trans hid'
          cases hs.symm.trans hs''
          exact ih _ hst'

theorem walkable_of_hasTree {L : Layout} (hL : L.Faithful) {t : Tree} (ht : HasTree h b L t)
    (hne : t.BranchesNonempty) : Walkable h b where
  isOpen := ht.isOpen
  root := ht.root.imp fun _ hs => hs.1
  here ref hr := by
    obtain ⟨u, hst, -⟩ := reached_stored hL ht hne hr
    exact ⟨_, count_of_stored hL hst⟩
  sound := sound_of_hasTree hL ht hne
  child ref c id hr hleaf hcount hpos hlt hid := by
    obtain ⟨u, hst, -⟩ := reached_stored hL ht hne hr
    cases u with
    | leaf es =>
        rw [isLeaf_of_stored_leaf hst] at hleaf
        cases hleaf
    | branch n sep child =>
        have hwidth : c = (n : Int) := Except.ok.inj (hcount.symm.trans (count_of_stored hL hst))
        obtain ⟨id', s', hid', hs', -⟩ :=
          childId_of_stored hL hst ⟨ref.index.toNat, by omega⟩ (by
            show ref.index = (ref.index.toNat : Int)
            omega)
        cases hid.symm.trans hid'
        exact ⟨s', hs'⟩
  ends s hs := by
    obtain ⟨s', hs', hst⟩ := ht.root
    cases hs.symm.trans hs'
    exact acc_of_stored hL hst

/-! ### To a tree -/

/-- A count that is not negative is the number of elements. -/
theorem pageCount_eq {p : Nat} {c : Int} (hcount : ElemRef.count h ⟨some p, none, 0⟩ = .ok c)
    (hc : 0 ≤ c) : (Page.count h.mem p).toNat < 2 ^ 31 ∧ c = (Page.count h.mem p).toNat := by
  have hcast : toInt32 (Page.count h.mem p).toNat = c := Except.ok.inj hcount
  have hlt := (Page.count h.mem p).toNat_lt
  rw [toInt32, Int.bmod_def] at hcast
  split at hcast <;> omega

/-- What a leaf holds. -/
theorem exists_entries (hleaf : ElemRef.isLeaf h ⟨s.1, s.2, 0⟩ = .ok true) {c : Int}
    (hcount : ElemRef.count h ⟨s.1, s.2, 0⟩ = .ok c) (hc : 0 ≤ c) :
    ∃ es, HoldsEntries h readLayout s es := by
  obtain ⟨page, node⟩ := s
  rcases node with - | q
  · rcases page with - | p
    · cases hleaf
    · obtain ⟨hlt, -⟩ := pageCount_eq hcount hc
      let entryAt (i : Nat) : Entry :=
        LeafPageElement.entry h.mem (Page.ptr h.mem p + 16 * readLayout.slot i)
      refine ⟨(List.range (Page.count h.mem p).toNat).map entryAt,
        of_decide_eq_true (Except.ok.inj hleaf), ?_, ?_, fun i e he => ?_⟩
      · rw [List.length_map, List.length_range]
      · rw [List.length_map, List.length_range]
        exact hlt
      · rw [List.getElem?_map, Option.map_eq_some_iff] at he
        obtain ⟨j, hj, rfl⟩ := he
        obtain ⟨hi, rfl⟩ := List.getElem?_eq_some_iff.mp hj
        rw [List.getElem_range]
  · exact ⟨_, Except.ok.inj hleaf, rfl⟩

/-- What a branch holds, and that the children are where its ids lead. -/
theorem exists_children (hleaf : ElemRef.isLeaf h ⟨s.1, s.2, 0⟩ = .ok false) {c : Int}
    (hcount : ElemRef.count h ⟨s.1, s.2, 0⟩ = .ok c) (hc : 0 ≤ c) :
    ∃ (n : Nat) (sep : Fin n → Slice) (id : Fin n → Pgid), c = n ∧
      HoldsChildren h readLayout s n sep id ∧
      ∀ i : Fin n, ElemRef.childId h ⟨s.1, s.2, (i : Nat)⟩ = .ok (id i) := by
  obtain ⟨page, node⟩ := s
  rcases node with - | q
  · rcases page with - | p
    · cases hleaf
    · obtain ⟨hlt, hcp⟩ := pageCount_eq hcount hc
      have hflags : ¬ Page.flags h.mem p &&& LeafPageFlag ≠ 0 :=
        of_decide_eq_false (Except.ok.inj hleaf)
      refine ⟨(Page.count h.mem p).toNat, _, _, hcp, ⟨not_not.mp hflags, rfl, hlt, fun i =>
        ⟨rfl, rfl⟩⟩, fun i => ?_⟩
      simp only [ElemRef.childId, Page.branchPageElement, branchPageElementSize, toNat_toUInt16]
      rfl
  · have hnode : (h.node q).isLeaf_ = false := Except.ok.inj hleaf
    refine ⟨(h.node q).inodes.length, fun i => (h.node q).inodes[i].key,
      fun i => (h.node q).inodes[i].id, (Except.ok.inj hcount).symm, ⟨hnode, ?_⟩, fun i => ?_⟩
    · exact (List.ofFn_getElem_eq_map _ _).symm
    · simp only [ElemRef.childId, vecAt_ofNat (List.getElem?_eq_getElem i.isLt)]
      rfl

/-- **Unfolding.**  What the root reaches is a tree, as long as every way down
from there ends. -/
theorem exists_stored (hw : Walkable h b) (hacc : Acc (ChildOf h b) s) :
    Reached h b s → ∃ u, Stored h b readLayout u s ∧ u.BranchesNonempty := by
  induction hacc with
  | intro s _ ih =>
      intro hr
      obtain ⟨c, hcount⟩ := hw.here ⟨s.1, s.2, 0⟩ hr
      obtain ⟨hc, hpos⟩ := hw.sound ⟨s.1, s.2, 0⟩ hr c hcount
      rcases hleaf : ElemRef.isLeaf h ⟨s.1, s.2, 0⟩ with e | leaf
      · -- what has a count is a page or a node
        obtain ⟨page, node⟩ := s
        rcases node with - | q
        · rcases page with - | p
          · cases hcount
          · cases hleaf
        · cases hleaf
      cases leaf with
      | true =>
          obtain ⟨es, hes⟩ := exists_entries hleaf hcount hc
          exact ⟨.leaf es, hes, trivial⟩
      | false =>
          obtain ⟨n, sep, id, rfl, hchildren, hids⟩ := exists_children hleaf hcount hc
          have hdown : ∀ i : Fin n, ∃ s', b.pageNode (id i) = .ok s' ∧
              ∃ u, Stored h b readLayout u s' ∧ u.BranchesNonempty := by
            intro i
            have hindex : (0 : Int) ≤ (i : Nat) ∧ ((i : Nat) : Int) < n := by omega
            obtain ⟨s', hs'⟩ := hw.child ⟨s.1, s.2, (i : Nat)⟩ n (id i) hr hleaf hcount hindex.1
              hindex.2 (hids i)
            have hbelow : ChildOf h b s' s :=
              @ChildOf.child h b ⟨s.1, s.2, (i : Nat)⟩ n (id i) s' hleaf hcount hindex.1 hindex.2
                (hids i) hs'
            have hreached : Reached h b s' :=
              @Reached.child h b ⟨s.1, s.2, (i : Nat)⟩ n (id i) s' hr hleaf hcount hindex.1
                hindex.2 (hids i) hs'
            exact ⟨s', hs', ih s' hbelow hreached⟩
          choose s' hs' u hst hne using hdown
          have hn : 0 < n := by
            have := hpos hleaf
            omega
          exact ⟨.branch n sep u, ⟨id, hchildren, fun i => ⟨s' i, hs' i, hst i⟩⟩, hn, hne⟩

/-- **Which buckets hold a tree.**  A bucket holds a tree whose branches have
children exactly if it is walkable, and then one only; and `first` and any
number of calls of `next` then return the entries of the tree, and nil after
them.  Pages are read as `leafPageElement` and `branchPageElement` read them, so
a page may have any count that is not negative as an `int`. -/
theorem walkable_iff (h : Heap) (b : Bucket) :
    Walkable h b ↔ ∃! t, (HasTree h b readLayout t ∧ t.BranchesNonempty) ∧
      ∀ fuel, t.size < fuel → ∀ k stack, forwardScan h b fuel k stack
        = .ok ((List.range (k + 1)).map fun j => pairOf t.elements[j]?) := by
  constructor
  · intro hw
    obtain ⟨s, hs⟩ := hw.root
    obtain ⟨t, hst, hne⟩ := exists_stored hw (hw.ends s hs) (.root hs)
    have ht : HasTree h b readLayout t := ⟨hw.isOpen, s, hs, hst⟩
    refine ⟨t, ⟨⟨ht, hne⟩, fun fuel hfuel k stack =>
      forwardScan_eq readLayout_faithful ht hne hfuel k stack⟩, ?_⟩
    rintro t' ⟨⟨ht', -⟩, -⟩
    obtain ⟨s', hs', hst'⟩ := ht'.root
    cases hs.symm.trans hs'
    exact hst'.unique hst
  · rintro ⟨t, ⟨⟨ht, hne⟩, -⟩, -⟩
    exact walkable_of_hasTree readLayout_faithful ht hne

end Cursor

end BoltCpp
