/-
BoltCpp/BucketTree.lean

The tree a bucket stands for.

`Stored` relates a finite multiway tree to what `page_node` resolves to: a
leaf of the tree to a page or node of leaf elements, a branch to a page or
node whose child ids resolve to the children.  A `Layout` says where a page
keeps element `i` and how many elements a page may have; `fileLayout` is the
format, `readLayout` what the 16-bit index of the accessors makes of it.

The second half answers the four questions a cursor asks of a reference.
-/
import BoltCpp.Cursor
import BoltCpp.LeafPage
import BoltCpp.Lib.MultiTree

namespace BoltCpp

open ByteMem

/-- Separators are keys, leaf entries are flags, key and value. -/
abbrev Tree := MultiTree Slice Entry

/-! ### Storage -/

/-- Where a page keeps element `i`, and which element counts it may have. -/
structure Layout where
  slot : Nat → Nat
  allows : Nat → Prop

/-- The format of a page: element `i` in slot `i`. -/
def fileLayout : Layout where
  slot := id
  allows n := n ≤ 65536

/-- A page as `leafPageElement(std::uint16_t)` reads it. -/
def readLayout : Layout where
  slot i := i % 65536
  allows n := n < 2 ^ 31

/-- The format without a bound on the element count. -/
def unboundedLayout : Layout where
  slot := id
  allows _ := True

/-- No pages at all: everything is a node. -/
def nodeLayout : Layout where
  slot := id
  allows _ := False

/-- The accessors and `int` counts of a page agree with the layout. -/
def Layout.Faithful (L : Layout) : Prop :=
  ∀ n, L.allows n → n < 2 ^ 31 ∧ ∀ i < n, L.slot i = i % 65536

theorem fileLayout_faithful : fileLayout.Faithful := by
  intro n hn
  have hn : n ≤ 65536 := hn
  refine ⟨by omega, fun i hi => ?_⟩
  exact (Nat.mod_eq_of_lt (by omega : i < 65536)).symm

theorem readLayout_faithful : readLayout.Faithful :=
  fun _ hn => ⟨hn, fun _ _ => rfl⟩

theorem nodeLayout_faithful : nodeLayout.Faithful :=
  fun _ hn => hn.elim

/-- A page or node holds the leaf entries `es`. -/
def HoldsEntries (h : Heap) (L : Layout) : Bucket.PageNode → List Entry → Prop
  | (_, some n), es => (h.node n).isLeaf_ = true ∧ (h.node n).inodes.map INode.entry = es
  | (some p, none), es =>
      Page.flags h.mem p &&& LeafPageFlag ≠ 0 ∧
        (Page.count h.mem p).toNat = es.length ∧ L.allows es.length ∧
        ∀ (i : Nat) (e : Entry), es[i]? = some e →
          LeafPageElement.entry h.mem (Page.ptr h.mem p + 16 * L.slot i) = e
  | (none, none), _ => False

/-- A page or node holds `n` children with separators `sep` and ids `id`. -/
def HoldsChildren (h : Heap) (L : Layout) :
    Bucket.PageNode → (n : Nat) → (Fin n → Slice) → (Fin n → Pgid) → Prop
  | (_, some q), _, sep, id => (h.node q).isLeaf_ = false ∧
      (h.node q).inodes.map (fun x => (x.key, x.id)) = List.ofFn fun i => (sep i, id i)
  | (some p, none), n, sep, id =>
      Page.flags h.mem p &&& LeafPageFlag = 0 ∧
        (Page.count h.mem p).toNat = n ∧ L.allows n ∧
        ∀ i : Fin n,
          BranchPageElement.key h.mem (Page.ptr h.mem p + 16 * L.slot i) = sep i ∧
            BranchPageElement.id h.mem (Page.ptr h.mem p + 16 * L.slot i) = id i
  | (none, none), _, _, _ => False

/-- A page or node is the root of the tree. -/
def Stored (h : Heap) (b : Bucket) (L : Layout) : Tree → Bucket.PageNode → Prop
  | .leaf es, s => HoldsEntries h L s es
  | .branch n sep child, s =>
      ∃ id : Fin n → Pgid, HoldsChildren h L s n sep id ∧
        ∀ i, ∃ s', b.pageNode (id i) = .ok s' ∧ Stored h b L (child i) s'

/-- The tree of a bucket whose transaction is open. -/
structure HasTree (h : Heap) (b : Bucket) (L : Layout) (t : Tree) : Prop where
  isOpen : b.tx_.db_.isSome = true
  root : ∃ s, b.pageNode b.root = .ok s ∧ Stored h b L t s

/-- The layout does not matter beyond the number of elements it allows. -/
theorem Stored.unbounded {h : Heap} {b : Bucket} {L : Layout} (hL : L.slot = id) {u : Tree} :
    ∀ {s : Bucket.PageNode}, Stored h b L u s → Stored h b unboundedLayout u s := by
  induction u with
  | leaf es =>
      rintro ⟨p, n⟩ hs
      rcases n with - | n
      · rcases p with - | p
        · exact hs
        · obtain ⟨hflags, hcount, -, helem⟩ := hs
          rw [hL] at helem
          exact ⟨hflags, hcount, trivial, helem⟩
      · exact hs
  | branch n sep c ih =>
      rintro ⟨p, q⟩ ⟨ids, hc, hchild⟩
      refine ⟨ids, ?_, fun i => ?_⟩
      · rcases q with - | q
        · rcases p with - | p
          · exact hc
          · obtain ⟨hflags, hcount, -, helem⟩ := hc
            rw [hL] at helem
            exact ⟨hflags, hcount, trivial, helem⟩
        · exact hc
      · obtain ⟨s', hp, hs'⟩ := hchild i
        exact ⟨s', hp, ih i hs'⟩

theorem HasTree.unbounded {h : Heap} {b : Bucket} {L : Layout} (hL : L.slot = id) {t : Tree}
    (ht : HasTree h b L t) : HasTree h b unboundedLayout t := by
  obtain ⟨s, hp, hs⟩ := ht.root
  exact ⟨ht.isOpen, s, hp, hs.unbounded hL⟩

/-- In the file format a page has at most 65536 elements. -/
theorem width_le_of_page {h : Heap} {b : Bucket} {u : Tree} {p : Option Nat}
    (hs : Stored h b fileLayout u (p, none)) : u.width ≤ 65536 := by
  cases p with
  | none =>
      cases u with
      | leaf es => exact hs.elim
      | branch n sep c => exact hs.elim fun _ h => h.1.elim
  | some p =>
      cases u with
      | leaf es => exact hs.2.2.1
      | branch n sep c => exact hs.elim fun _ h => h.1.2.2.1

/-! ### A store has one tree -/

section

variable {h : Heap} {b : Bucket} {L : Layout} {s : Bucket.PageNode}

theorem HoldsEntries.unique {es es' : List Entry} (he : HoldsEntries h L s es)
    (he' : HoldsEntries h L s es') : es = es' := by
  obtain ⟨p, n⟩ := s
  rcases n with - | n
  · rcases p with - | p
    · exact he.elim
    · obtain ⟨-, hcount, -, helem⟩ := he
      obtain ⟨-, hcount', -, helem'⟩ := he'
      have hlen : es.length = es'.length := hcount.symm.trans hcount'
      refine List.ext_getElem hlen fun i hi hi' => ?_
      rw [← helem i _ (List.getElem?_eq_getElem hi), helem' i _ (List.getElem?_eq_getElem hi')]
  · exact he.2.symm.trans he'.2

theorem HoldsChildren.unique {n n' : Nat} {sep : Fin n → Slice} {sep' : Fin n' → Slice}
    {id : Fin n → Pgid} {id' : Fin n' → Pgid} (hc : HoldsChildren h L s n sep id)
    (hc' : HoldsChildren h L s n' sep' id') :
    ∃ hn : n = n', ∀ i, sep i = sep' (hn ▸ i) ∧ id i = id' (hn ▸ i) := by
  obtain ⟨p, q⟩ := s
  rcases q with - | q
  · rcases p with - | p
    · exact hc.elim
    · obtain ⟨-, hcount, -, helem⟩ := hc
      obtain ⟨-, hcount', -, helem'⟩ := hc'
      obtain rfl : n = n' := hcount.symm.trans hcount'
      exact ⟨rfl, fun i => ⟨(helem i).1.symm.trans (helem' i).1,
        (helem i).2.symm.trans (helem' i).2⟩⟩
  · have heq := hc.2.symm.trans hc'.2
    obtain rfl : n = n' := by simpa using congrArg List.length heq
    refine ⟨rfl, fun i => ?_⟩
    have := congrFun (List.ofFn_injective heq) i
    exact ⟨congrArg Prod.fst this, congrArg Prod.snd this⟩

theorem not_holdsEntries_of_holdsChildren {n : Nat} {sep : Fin n → Slice} {id : Fin n → Pgid}
    {es : List Entry} (hc : HoldsChildren h L s n sep id) : ¬ HoldsEntries h L s es := by
  intro he
  obtain ⟨p, q⟩ := s
  rcases q with - | q
  · rcases p with - | p
    · exact hc.elim
    · exact he.1 hc.1
  · have := hc.1.symm.trans he.1
    cases this

/-- The tree is determined by where it is stored. -/
theorem Stored.unique {t : Tree} :
    ∀ {t' : Tree} {s : Bucket.PageNode}, Stored h b L t s → Stored h b L t' s → t = t' := by
  induction t with
  | leaf es =>
      intro t' s hs hs'
      cases t' with
      | leaf es' => exact congrArg _ (HoldsEntries.unique hs hs')
      | branch n sep child =>
          obtain ⟨id, hc, -⟩ := hs'
          exact absurd hs (not_holdsEntries_of_holdsChildren hc)
  | branch n sep child ih =>
      intro t' s hs hs'
      obtain ⟨id, hc, hchild⟩ := hs
      cases t' with
      | leaf es' => exact absurd hs' (not_holdsEntries_of_holdsChildren hc)
      | branch n' sep' child' =>
          obtain ⟨id', hc', hchild'⟩ := hs'
          obtain ⟨rfl, hsame⟩ := hc.unique hc'
          have hsep : sep = sep' := funext fun i => (hsame i).1
          -- equal ids resolve to the same page or node, hence to equal subtrees
          have hch : child = child' := by
            funext i
            obtain ⟨s₁, hp, hst⟩ := hchild i
            obtain ⟨s₂, hp', hst'⟩ := hchild' i
            rw [← (hsame i).2, hp] at hp'
            obtain rfl := Except.ok.inj hp'
            exact ih i hst hst'
          rw [hsep, hch]

end

/-! ### Leaf pages -/

/-- A page that holds the image of `xs` is a leaf with the entries that the
layout's slots select from `xs`. -/
theorem holdsEntries_of_image {h : Heap} {L : Layout} {p : Nat} {xs : List INode}
    {es : List Entry} (hflags : Page.flags h.mem p &&& LeafPageFlag ≠ 0)
    (hcount : (Page.count h.mem p).toNat = es.length) (hallows : L.allows es.length)
    (himage : HoldsImage h.mem (Page.ptr h.mem p) true xs)
    (hsize : (image true xs).length < 2 ^ 32)
    (hslot : ∀ i < es.length, es[i]? = (xs[L.slot i]?).map INode.entry) :
    HoldsEntries h L (some p, none) es := by
  refine ⟨hflags, hcount, hallows, fun i e he => ?_⟩
  rw [hslot i (List.getElem?_eq_some_iff.mp he).1, Option.map_eq_some_iff] at he
  obtain ⟨x, hx, rfl⟩ := he
  obtain ⟨hf, hk, hv⟩ := himage.leafElement hsize hx
  rw [LeafPageElement.entry, hf, hk, hv, INode.entry]

/-- What `write` leaves behind for a leaf node is a stored leaf. -/
theorem holdsEntries_of_holdsLeaf {h : Heap} {p : Nat} {xs : List INode}
    (hp : Page.HoldsLeaf h.mem p xs) (hlen : xs.length ≤ 0xffff)
    (hsize : (image true xs).length < 2 ^ 32) :
    HoldsEntries h fileLayout (some p, none) (xs.map INode.entry) := by
  refine holdsEntries_of_image (by rw [hp.flags]; decide) (by rw [hp.count, List.length_map])
    ?_ hp.image hsize fun i _ => List.getElem?_map
  rw [List.length_map]
  exact Nat.le_succ_of_le hlen

/-! ### What a cursor sees of it -/

/-- Key, value and flags of an entry, or nil. -/
def keyValueOf : Option Entry → KeyValue
  | some e => (some e.key, some e.value, e.flags)
  | none => (none, none, 0)

/-- The pair for an entry, or nil: its key, and its value unless the flags say
that it is a nested bucket. -/
def pairOf : Option Entry → Pair
  | some e => (some e.key, if e.flags &&& BucketLeafFlag = 0 then some e.value else none)
  | none => (none, none)

/-- It is the pair that a cursor makes of key, value and flags. -/
theorem toPair_keyValueOf (e : Option Entry) : Cursor.toPair (keyValueOf e) = pairOf e := by
  cases e with
  | none => rfl
  | some e =>
      rw [keyValueOf, Cursor.toPair, pairOf]
      by_cases hplain : e.flags &&& BucketLeafFlag = 0
      · rw [if_neg (not_not.mpr hplain), if_pos hplain]
      · rw [if_pos hplain, if_neg hplain]

theorem pairOf_some_ne_nil (e : Entry) : pairOf (some e) ≠ (none, none) := by
  intro h
  have hkey : some e.key = none := congrArg Prod.fst h
  cases hkey

section

variable {h : Heap} {b : Bucket} {L : Layout} {ref : ElemRef}

theorem isLeaf_of_stored_leaf {es : List Entry}
    (hs : Stored h b L (.leaf es) (ref.page, ref.node)) : ref.isLeaf h = .ok true := by
  obtain ⟨page, node, index⟩ := ref
  rcases node with - | n
  · rcases page with - | p
    · exact hs.elim
    · have := hs.1
      simp only [ElemRef.isLeaf, decide_eq_true this]
      rfl
  · have : (h.node n).isLeaf_ = true := hs.1
    simp only [ElemRef.isLeaf, this]
    rfl

theorem isLeaf_of_stored_branch {n : Nat} {sep : Fin n → Slice} {child : Fin n → Tree}
    (hs : Stored h b L (.branch n sep child) (ref.page, ref.node)) :
    ref.isLeaf h = .ok false := by
  obtain ⟨page, node, index⟩ := ref
  obtain ⟨id, hc, -⟩ := hs
  rcases node with - | q
  · rcases page with - | p
    · exact hc.elim
    · have : Page.flags h.mem p &&& LeafPageFlag = 0 := hc.1
      simp only [ElemRef.isLeaf, this]
      rfl
  · have : (h.node q).isLeaf_ = false := hc.1
    simp only [ElemRef.isLeaf, this]
    rfl

variable (hL : L.Faithful)

include hL in
theorem count_of_stored {t : Tree} (hs : Stored h b L t (ref.page, ref.node)) :
    ref.count h = .ok (t.width : Int) := by
  obtain ⟨page, node, index⟩ := ref
  rcases node with - | q
  · rcases page with - | p
    · cases t with
      | leaf es => exact hs.elim
      | branch n sep child => exact hs.elim fun _ h => h.1.elim
    · have hw : (Page.count h.mem p).toNat = t.width ∧ t.width < 2 ^ 31 := by
        cases t with
        | leaf es => exact ⟨hs.2.1, (hL _ hs.2.2.1).1⟩
        | branch n sep child =>
            obtain ⟨id, hc, -⟩ := hs
            exact ⟨hc.2.1, (hL _ hc.2.2.1).1⟩
      simp only [ElemRef.count, hw.1, toInt32_of_lt hw.2]
      rfl
  · have hw : (h.node q).inodes.length = t.width := by
      cases t with
      | leaf es =>
          have := congrArg List.length hs.2
          simpa [MultiTree.width] using this
      | branch n sep child =>
          obtain ⟨id, hc, -⟩ := hs
          have := congrArg List.length hc.2
          simpa [MultiTree.width] using this
    simp only [ElemRef.count, Node.numChildren, hw]
    rfl

include hL in
/-- The child at a valid index resolves to the subtree. -/
theorem childId_of_stored {n : Nat} {sep : Fin n → Slice} {child : Fin n → Tree}
    (hs : Stored h b L (.branch n sep child) (ref.page, ref.node)) (i : Fin n)
    (hi : ref.index = (i : Nat)) :
    ∃ id s, ref.childId h = .ok id ∧ b.pageNode id = .ok s ∧ Stored h b L (child i) s := by
  obtain ⟨page, node, index⟩ := ref
  obtain rfl : index = (i : Nat) := hi
  obtain ⟨id, hc, hchild⟩ := hs
  obtain ⟨s, hs, hst⟩ := hchild i
  refine ⟨id i, s, ?_, hs, hst⟩
  rcases node with - | q
  · rcases page with - | p
    · exact hc.elim
    · obtain ⟨-, -, hallow, helem⟩ := hc
      -- the 16-bit index picks the slot the layout gives the child
      have hslot : (toUInt16 (i : Nat)).toNat = L.slot i := by
        rw [toNat_toUInt16, (hL _ hallow).2 i i.isLt]
      simp only [ElemRef.childId, Page.branchPageElement, branchPageElementSize, hslot,
        (helem i).2]
      rfl
  · have hx : ((h.node q).inodes.map (fun x => (x.key, x.id)))[(i : Nat)]?
        = some (sep i, id i) := by
      rw [hc.2, List.getElem?_ofFn]
      simp
    rw [List.getElem?_map, Option.map_eq_some_iff] at hx
    obtain ⟨x, hx, hkey⟩ := hx
    simp only [ElemRef.childId, vecAt_ofNat hx]
    exact congrArg Except.ok (congrArg Prod.snd hkey)

include hL in
/-- `keyValue` at an index of a leaf, past the end included. -/
theorem keyValue_of_stored {es : List Entry} {stack : Cursor.Stack}
    (hs : Stored h b L (.leaf es) (ref.page, ref.node)) (i : Nat) (hi : ref.index = i) :
    Cursor.keyValue h (ref :: stack) = .ok (keyValueOf es[i]?) := by
  have hcount := count_of_stored hL hs
  obtain ⟨page, node, index⟩ := ref
  obtain rfl : index = i := hi
  have hcount : ElemRef.count h ⟨page, node, i⟩ = .ok (es.length : Int) := hcount
  have hback : Cursor.back (⟨page, node, i⟩ :: stack) = .ok ⟨page, node, i⟩ := rfl
  rw [Cursor.keyValue, hback]
  simp only [bind, Except.bind, hcount]
  -- inside the leaf the entry is read, past its end the answer is nil
  by_cases hlt : i < es.length
  · have hin : ¬ ((es.length : Int) = 0 ∨ (i : Int) ≥ es.length) := by omega
    rw [if_neg hin]
    obtain ⟨e, he⟩ : ∃ e, es[i]? = some e := ⟨es[i], by simp [hlt]⟩
    rw [he]
    rcases node with - | q
    · rcases page with - | p
      · exact hs.elim
      · obtain ⟨-, -, hallow, helem⟩ := hs
        have hslot : (toUInt16 (i : Nat)).toNat = L.slot i := by
          rw [toNat_toUInt16, (hL _ hallow).2 i hlt]
        have hentry := helem i e he
        simp only [Page.leafPageElement, leafPageElementSize, hslot, keyValueOf]
        rw [← hentry]
        rfl
    · have hx : ((h.node q).inodes.map INode.entry)[i]? = some e := by
        rw [hs.2, he]
      rw [List.getElem?_map, Option.map_eq_some_iff] at hx
      obtain ⟨x, hx, rfl⟩ := hx
      simp only [vecAt_ofNat hx]
      rfl
  · have hout : (es.length : Int) = 0 ∨ (i : Int) ≥ es.length := by omega
    rw [if_pos hout, List.getElem?_eq_none (by omega)]
    rfl

end

end BoltCpp
