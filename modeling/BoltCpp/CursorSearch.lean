/-
BoltCpp/CursorSearch.lean

`search` on pages and nodes.

Searching a page copies its elements into a vector first, so the memory
changes on the way down.  As long as the vectors keep away from the pages of
the tree (`VectorsAway`), headers and element arrays stay what they are
(`Agrees`).  Which child a search picks is not at issue here: the stack it
builds climbs to a leaf (`search_settles`).
-/
import BoltCpp.CursorStack
import BoltCpp.KeySearch

namespace BoltCpp

open ByteMem MultiTree

variable {h h' : Heap} {b : Bucket} {t : Tree} {vec : Nat → Nat} {key : Slice}

/-! ### The pages of a tree -/

/-- What can be reached from the root of the bucket through stored child ids. -/
inductive Reaches (h : Heap) (b : Bucket) : Bucket.PageNode → Prop
  | root {s : Bucket.PageNode} (hp : b.pageNode b.root = .ok s) : Reaches h b s
  | child {s s' : Bucket.PageNode} {i : Nat} {id : Pgid} (hs : Reaches h b s)
      (hleaf : ElemRef.isLeaf h ⟨s.1, s.2, 0⟩ = .ok false) (hid : HoldsId h s i id)
      (hp : b.pageNode id = .ok s') : Reaches h b s'

/-- Every page of the tree is a leaf or branch page. -/
def PagesTyped (h : Heap) (b : Bucket) : Prop :=
  ∀ p, Reaches h b (some p, none) →
    Page.flags h.mem p &&& (BranchPageFlag ||| LeafPageFlag) ≠ 0

/-- Where `search` comes by, at which depth and with which memory: it has left
copies of the branch pages it has passed. -/
inductive Visits (h : Heap) (b : Bucket) (vec : Nat → Nat) (key : Slice) :
    Heap → Nat → Bucket.PageNode → Prop
  | root {s : Bucket.PageNode} (hp : b.pageNode b.root = .ok s) : Visits h b vec key h 0 s
  | node {h' : Heap} {d i : Nat} {n : NodePtr} {id : Pgid} {s : Bucket.PageNode}
      (hv : Visits h b vec key h' d (none, some n))
      (hleaf : ElemRef.isLeaf h' ⟨none, some n, 0⟩ = .ok false)
      (hsearch : Cursor.searchNode (h'.node n) key = .ok (i, id)) (hp : b.pageNode id = .ok s) :
      Visits h b vec key h' (d + 1) s
  | page {h' : Heap} {d p i : Nat} {id : Pgid} {s : Bucket.PageNode}
      (hv : Visits h b vec key h' d (some p, none))
      (hleaf : ElemRef.isLeaf h' ⟨some p, none, 0⟩ = .ok false)
      (hsearch : Cursor.searchPage h'.mem p (vec d) key = .ok (i, id))
      (hp : b.pageNode id = .ok s) :
      Visits h b vec key { h' with mem := (Page.branchPageElements h'.mem p (vec d)).1 } (d + 1) s

/-- The vectors that `search` allocates, one at each depth, are clear of the
headers and element arrays of all pages of the tree. -/
structure VectorsAway (h : Heap) (b : Bucket) (vec : Nat → Nat) (key : Slice) : Prop where
  header : ∀ h' d q p, Visits h b vec key h' d (some q, none) → Reaches h b (some p, none) →
    vec d + 16 * (Page.count h'.mem q).toNat ≤ p ∨ p + 32 ≤ vec d
  elements : ∀ h' d q p, Visits h b vec key h' d (some q, none) → Reaches h b (some p, none) →
    vec d + 16 * (Page.count h'.mem q).toNat ≤ Page.ptr h.mem p ∨
      Page.ptr h.mem p + 16 * (Page.count h.mem p).toNat ≤ vec d

/-- The pages of the tree look the same in `h'`. -/
structure Agrees (h : Heap) (b : Bucket) (h' : Heap) : Prop where
  node : h'.node = h.node
  header : ∀ p, Reaches h b (some p, none) → Page.SameHeader h.mem h'.mem p p
  elements : ∀ p, Reaches h b (some p, none) → ∀ i, i < 16 * (Page.count h.mem p).toNat →
    h'.mem (Page.ptr h.mem p + i) = h.mem (Page.ptr h.mem p + i)

theorem Agrees.refl : Agrees h b h :=
  ⟨rfl, fun _ _ => ⟨rfl, rfl, rfl, rfl, rfl⟩, fun _ _ _ _ => rfl⟩

/-- Copying the elements of a page that is visited is not seen. -/
theorem Agrees.copy (ha : Agrees h b h') (haway : VectorsAway h b vec key) {q d : Nat}
    (hv : Visits h b vec key h' d (some q, none)) :
    Agrees h b { h' with mem := (Page.branchPageElements h'.mem q (vec d)).1 } := by
  have hlen : (h'.mem.read (Page.ptr h'.mem q)
      (branchPageElementSize * (Page.count h'.mem q).toNat)).length
        = 16 * (Page.count h'.mem q).toNat := Mem.length_read _ _ _
  refine ⟨ha.node, fun p hp => ?_, fun p hp i hi => ?_⟩
  · have hsame := ha.header p hp
    have hcopy : Page.SameHeader h'.mem (Page.branchPageElements h'.mem q (vec d)).1 p p :=
      Page.sameHeader_write h'.mem _ (by rw [hlen]; exact haway.header h' d q p hv hp)
    exact ⟨hcopy.id.trans hsame.id, hcopy.flags.trans hsame.flags,
      hcopy.count.trans hsame.count, hcopy.overflow.trans hsame.overflow,
      hcopy.ptr.trans hsame.ptr⟩
  · rw [← ha.elements p hp i hi]
    rcases haway.elements h' d q p hv hp with hbelow | habove
    · exact Mem.write_of_ge h'.mem _ (by rw [hlen]; omega)
    · exact Mem.write_of_lt h'.mem _ (by omega)

theorem Agrees.isLeaf (ha : Agrees h b h') {s : Bucket.PageNode} (hs : Reaches h b s) (i : Int) :
    ElemRef.isLeaf h' ⟨s.1, s.2, i⟩ = ElemRef.isLeaf h ⟨s.1, s.2, i⟩ := by
  obtain ⟨p, n⟩ := s
  rcases n with - | n
  · rcases p with - | p
    · rfl
    · simp only [ElemRef.isLeaf, (ha.header p hs).flags]
  · simp only [ElemRef.isLeaf, ha.node]

/-! ### One page or node -/

theorem searchPage_eq_childOf (m : Mem) (p vec : Nat) (s : Slice) :
    Cursor.searchPage m p vec s
      = (do
          let (m, inodes) := Page.branchPageElements m p vec
          let i := childOf (inodes.map (BranchPageElement.key m)) s
          let elem ← vecAt inodes (i : Nat)
          pure (i, BranchPageElement.id m elem)) := by
  simp only [Cursor.searchPage, lowerBound_eq_keyIndex (BranchPageElement.key _),
    childIndex_eq_childOf (BranchPageElement.key _)]

/-- **`searchPage`** picks some child of the page. -/
theorem searchPage_holdsId (ha : Agrees h b h') {p : Nat} (hp : Reaches h b (some p, none))
    (hcount : 0 < (Page.count h.mem p).toNat) (v : Nat) (s : Slice) :
    ∃ i id, Cursor.searchPage h'.mem p v s = .ok (i, id) ∧ HoldsId h (some p, none) i id := by
  rw [searchPage_eq_childOf]
  generalize hm : (Page.branchPageElements h'.mem p v).1 = m
  have hinodes : Page.branchPageElements h'.mem p v
      = (m, Page.elementAddrs v (Page.count h.mem p).toNat) := by
    rw [← hm, ← (ha.header p hp).count]
    rfl
  simp only [hinodes]
  generalize hks : (Page.elementAddrs v (Page.count h.mem p).toNat).map
    (BranchPageElement.key m) = ks
  have hlen : ks.length = (Page.count h.mem p).toNat := by
    rw [← hks, List.length_map, Page.length_elementAddrs]
  have hlt : childOf ks s < (Page.count h.mem p).toNat :=
    hlen ▸ childOf_lt (List.ne_nil_of_length_pos (hlen ▸ hcount)) s
  have helem : (Page.elementAddrs v (Page.count h.mem p).toNat)[childOf ks s]?
      = some (v + 16 * childOf ks s) := by
    rw [Page.elementAddrs, List.getElem?_map, List.getElem?_range hlt]
    rfl
  refine ⟨childOf ks s, _, by rw [vecAt_ofNat helem]; rfl, hlt, ?_⟩
  -- the id is the one in the page, at the same offset of the copy
  have hcopy : m.load (v + (16 * childOf ks s + 8)) 8
      = h'.mem.load (Page.ptr h'.mem p + (16 * childOf ks s + 8)) 8 := by
    rw [← hm]
    refine Mem.load_copy h'.mem ?_
    rw [(ha.header p hp).count, branchPageElementSize]
    omega
  have hpage : h'.mem.load (Page.ptr h'.mem p + (16 * childOf ks s + 8)) 8
      = h.mem.load (Page.ptr h.mem p + (16 * childOf ks s + 8)) 8 := by
    rw [(ha.header p hp).ptr]
    refine Mem.load_congr fun i hi => ?_
    rw [Nat.add_assoc]
    exact ha.elements p hp _ (by omega)
  rw [BranchPageElement.id, BranchPageElement.id, Nat.add_assoc, Nat.add_assoc, hcopy, hpage]

theorem searchNode_holdsId {n : NodePtr} (hlen : 0 < (h.node n).inodes.length) (p : Option Nat)
    (s : Slice) :
    ∃ i id, Cursor.searchNode (h.node n) s = .ok (i, id) ∧ HoldsId h (p, some n) i id := by
  have hlt : childOf ((h.node n).inodes.map INode.key) s
      < ((h.node n).inodes.map INode.key).length :=
    childOf_lt (List.ne_nil_of_length_pos (by rwa [List.length_map])) s
  rw [List.length_map] at hlt
  have helem := List.getElem?_eq_getElem hlt
  refine ⟨_, _, ?_, _, helem, rfl⟩
  rw [searchNode_eq_childOf, vecAt_ofNat helem]
  rfl

/-- A stored id leads to a child, where element `i` is in slot `i`. -/
theorem child_of_holdsId {L : Layout} (hL : L.slot = id) {n : Nat} {sep : Fin n → Slice}
    {c : Fin n → Tree} {s : Bucket.PageNode} (hs : Stored h b L (.branch n sep c) s) {i : Nat}
    {id : Pgid} (hid : HoldsId h s i id) :
    ∃ (hi : i < n) (s' : Bucket.PageNode), b.pageNode id = .ok s' ∧
      Stored h b L (c ⟨i, hi⟩) s' := by
  obtain ⟨p, q⟩ := s
  obtain ⟨ids, hc, hchild⟩ := hs
  suffices hi : ∃ hi : i < n, id = ids ⟨i, hi⟩ by
    obtain ⟨hi, rfl⟩ := hi
    obtain ⟨s', hp, hs'⟩ := hchild ⟨i, hi⟩
    exact ⟨hi, s', hp, hs'⟩
  rcases q with - | q
  · rcases p with - | p
    · exact hc.elim
    · obtain ⟨hlt, rfl⟩ := hid
      obtain ⟨-, hcount, -, helem⟩ := hc
      rw [hcount] at hlt
      rw [hL] at helem
      exact ⟨hlt, (helem ⟨i, hlt⟩).2⟩
  · obtain ⟨x, hx, rfl⟩ := hid
    have hmap : ((h.node q).inodes.map fun x => (x.key, x.id))[i]? = some (x.key, x.id) := by
      rw [List.getElem?_map, hx]
      rfl
    rw [hc.2, List.getElem?_ofFn] at hmap
    split at hmap
    · rename_i hi
      exact ⟨hi, (congrArg Prod.snd (Option.some.inj hmap)).symm⟩
    · cases hmap

/-! ### The descent -/

theorem Agrees.typed (ha : Agrees h b h') (htyped : PagesTyped h b) {p : Nat}
    (hs : Reaches h b (some p, none)) :
    ¬ Page.flags h'.mem p &&& (BranchPageFlag ||| LeafPageFlag) = 0 := by
  rw [(ha.header p hs).flags]
  exact htyped p hs

/-- **In a leaf** `search` ends, with an index that is not negative. -/
theorem search_in_leaf (htyped : PagesTyped h b) (ha : Agrees h b h') {s : Bucket.PageNode}
    {id : Pgid} (hs : Reaches h b s) (hid : b.pageNode id = .ok s)
    (hleaf : ElemRef.isLeaf h' ⟨s.1, s.2, 0⟩ = .ok true) (fuel : Nat) (rest : Cursor.Stack) :
    ∃ i : Nat, Cursor.search b vec key (fuel + 1) h' id rest
      = .ok (⟨s.1, s.2, i⟩ :: rest) := by
  obtain ⟨i, hi⟩ : ∃ i, Cursor.nsearch h' ⟨s.1, s.2, 0⟩ (vec rest.length) key = .ok i := by
    obtain ⟨p, q⟩ := s
    rcases q with - | q
    · rcases p with - | p
      · cases hleaf
      · exact ⟨_, rfl⟩
    · exact ⟨_, rfl⟩
  refine ⟨i, ?_⟩
  obtain ⟨p, q⟩ := s
  rcases q with - | q
  · rcases p with - | p
    · cases hleaf
    · simp only [Cursor.search, hid, ok_bind, if_neg (ha.typed htyped hs), hleaf, hi, if_true]
      rfl
  · obtain rfl : p = none := Bucket.pageNode_node hid
    simp only [Cursor.search, hid, ok_bind, hleaf, hi, if_true]
    rfl

/-- **In a branch** `search` goes on in some child, with the elements of a page
copied. -/
theorem search_in_branch (haway : VectorsAway h b vec key) (htyped : PagesTyped h b)
    (ha : Agrees h b h') {s : Bucket.PageNode} {id : Pgid} {n : Nat} {sep : Fin n → Slice}
    {c : Fin n → Tree} (hn : 0 < n) (hs : Reaches h b s) (hid : b.pageNode id = .ok s)
    (hst : Stored h b unboundedLayout (.branch n sep c) s)
    (hleaf : ElemRef.isLeaf h' ⟨s.1, s.2, 0⟩ = .ok false) {rest : Cursor.Stack}
    (hv : Visits h b vec key h' rest.length s) (fuel : Nat) :
    ∃ (h'' : Heap) (i : Nat) (child : Pgid), Agrees h b h'' ∧ HoldsId h s i child ∧
      (∀ s', b.pageNode child = .ok s' → Visits h b vec key h'' (rest.length + 1) s') ∧
      Cursor.search b vec key (fuel + 1) h' id rest
        = Cursor.search b vec key fuel h'' child (⟨s.1, s.2, i⟩ :: rest) := by
  obtain ⟨p, q⟩ := s
  rcases q with - | q
  · rcases p with - | p
    · cases hleaf
    · have hcount : 0 < (Page.count h.mem p).toNat := by
        obtain ⟨ids, hc, -⟩ := hst
        rw [hc.2.1]
        exact hn
      obtain ⟨i, child, hsearch, hholds⟩ :=
        searchPage_holdsId ha hs hcount (vec rest.length) key
      refine ⟨_, i, child, ha.copy haway hv, hholds, fun _ => .page hv hleaf hsearch, ?_⟩
      simp only [Cursor.search, hid, ok_bind, if_neg (ha.typed htyped hs), hleaf,
        Bool.false_eq_true, if_false, hsearch]
  · obtain rfl : p = none := Bucket.pageNode_node hid
    have hlen : 0 < (h.node q).inodes.length := by
      obtain ⟨ids, hc, -⟩ := hst
      have := congrArg List.length hc.2
      rw [List.length_map, List.length_ofFn] at this
      omega
    obtain ⟨i, child, hsearch, hholds⟩ := searchNode_holdsId hlen none key
    rw [← ha.node] at hsearch
    refine ⟨h', i, child, ha, hholds, fun _ => .node hv hleaf hsearch, ?_⟩
    simp only [Cursor.search, hid, ok_bind, hleaf, Bool.false_eq_true, if_false, hsearch]

/-- **`search` builds a settled stack.**  The induction is on the subtree the
id resolves to; `hpush` says how references to it extend the stack. -/
theorem search_settles (haway : VectorsAway h b vec key) (htyped : PagesTyped h b) (u : Tree) :
    ∀ {fuel : Nat} {h' : Heap} {id : Pgid} {s : Bucket.PageNode} {rest : Cursor.Stack}
      {ts : List Tree}, Agrees h b h' → Reaches h b s → Visits h b vec key h' rest.length s →
      b.pageNode id = .ok s → (∀ i, Climbs h b t (⟨s.1, s.2, i⟩ :: rest) (u :: ts)) →
      u.BranchesNonempty → u.size ≤ fuel →
      ∃ stack, Cursor.search b vec key fuel h' id rest = .ok stack ∧ Settled h b t stack := by
  induction u with
  | leaf es =>
      intro fuel h' id s rest ts ha hs _ hid hpush _ hfuel
      have hfuel : 0 < fuel := hfuel
      obtain ⟨k, rfl⟩ : ∃ k, fuel = k + 1 := ⟨fuel - 1, by omega⟩
      have hleaf : ElemRef.isLeaf h' ⟨s.1, s.2, 0⟩ = .ok true :=
        (ha.isLeaf hs 0).trans (isLeaf_leaf (hpush 0))
      obtain ⟨i, hi⟩ := search_in_leaf htyped ha hs hid hleaf k rest
      exact ⟨_, hi, es, ts, hpush i, .inside (Int.natCast_nonneg i)⟩
  | branch n sep c ih =>
      intro fuel h' id s rest ts ha hs hv hid hpush hne hfuel
      have hn : 0 < n := hne.1
      have hst := (hpush 0).stored
      have hleaf : ElemRef.isLeaf h ⟨s.1, s.2, 0⟩ = .ok false := isLeaf_branch (hpush 0)
      have hlt : ∀ i : Fin n, (c i).size < (MultiTree.branch n sep c).size :=
        size_child_lt n sep c
      obtain ⟨k, rfl⟩ : ∃ k, fuel = k + 1 := ⟨fuel - 1, by have := hlt ⟨0, hn⟩; omega⟩
      obtain ⟨h'', i, child, ha'', hholds, hv'', hrun⟩ := search_in_branch haway htyped ha hn hs hid
        hst ((ha.isLeaf hs 0).trans hleaf) hv k
      rw [hrun]
      -- the search goes on in the child that was chosen
      obtain ⟨hi, s', hp, hst'⟩ := child_of_holdsId rfl hst hholds
      have hinner : Inner ⟨s.1, s.2, i⟩ n :=
        .inside (Int.natCast_nonneg i) (show (i : Int) < n by omega)
      have hclimbs : ∀ j, Climbs h b t (⟨s'.1, s'.2, j⟩ :: ⟨s.1, s.2, i⟩ :: rest)
          (c ⟨i, hi⟩ :: .branch n sep c :: ts) := fun j =>
        .child (hpush i) hinner (Or.inl rfl) hholds hp hst'
      have hsize : (c ⟨i, hi⟩).size ≤ k := by
        have := hlt ⟨i, hi⟩
        omega
      exact ih ⟨i, hi⟩ ha'' (.child hs hleaf hholds hp) (hv'' s' hp) hp hclimbs (hne.2 _) hsize

end BoltCpp
