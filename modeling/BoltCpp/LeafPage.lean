/-
BoltCpp/LeafPage.lean

Leaf pages: from a node to a page and back.

The encoder's half is `Node.write_leaf`, the decoder's half
`Node.read_of_image`; `Node.write_again` is a second write, to another page, of
the node that was read.  `NodeRef.leaf_round_trip` puts them together.
-/
import BoltCpp.PageRead

namespace BoltCpp

open ByteMem ByteMem.Mem

/-! ### The round trip -/

/-- The page is clear, or was a leaf page before. -/
def Page.ClearOrLeaf (m : Mem) (p : Nat) : Prop :=
  Page.flags m p = 0 ∨ Page.flags m p = LeafPageFlag

/-- The object at `q` and its `n`-byte data area lie clear of the `n` bytes
at `a`. -/
def Page.ApartFrom (m : Mem) (q a n : Nat) : Prop :=
  Clear q a n ∧ (Page.ptr m q + n ≤ a ∨ a + n ≤ Page.ptr m q)

/-- The page after a leaf node has been written to it. -/
structure Page.HoldsLeaf (m : Mem) (p : Nat) (xs : List INode) : Prop where
  flags : Page.flags m p = LeafPageFlag
  count : (Page.count m p).toNat = xs.length
  image : HoldsImage m (Page.ptr m p) true xs

namespace Node

/-- **Encoding.**  What `write` leaves behind for a leaf node. -/
theorem write_leaf {n : Node} {m : Mem} {p : Nat} (hleaf : n.isLeaf_ = true)
    (hlen : n.inodes.length ≤ 0xffff) (hflags : Page.ClearOrLeaf m p)
    (hroom : Page.HasRoom m p (image true n.inodes).length) :
    ∃ m', n.write m p = .ok m' ∧ Page.HoldsLeaf m' p n.inodes ∧
      Page.id m' p = Page.id m p ∧ Page.ptr m' p = Page.ptr m p ∧
      m' = (withHeader m p n).write (Page.ptr m p) (image true n.inodes) := by
  have hwrite := Node.write_eq (n := n) (m := m) (p := p) hlen (by rwa [hleaf])
    (by rw [hleaf]; simp)
  rw [hleaf] at hwrite
  have hsame := Page.sameHeader_write (withHeader m p n) (p := p) (a := Page.ptr m p)
    (image true n.inodes) hroom
  have hptr := hsame.ptr.trans (ptr_withHeader m p n)
  refine ⟨_, hwrite, ⟨?_, ?_, ?_⟩, hsame.id.trans (id_withHeader m p n), hptr, rfl⟩
  · rw [hsame.flags, flags_withHeader, hleaf]
    rcases hflags with h | h <;> rw [h] <;> rfl
  · rw [hsame.count, count_withHeader, toNat_toUInt32 (by omega)]
  · rw [hptr]
    exact holdsImage_write _ _ _ _

/-- A leaf image does not depend on the child ids. -/
theorem image_leaf_congr (xs : List INode) :
    image true (xs.map fun x => { x with id := 0 }) = image true xs := by
  have hheaders : ∀ pos, headers true (xs.map fun x => ({ x with id := 0 } : INode)) pos
      = headers true xs pos := by
    induction xs with
    | nil => intro _; rfl
    | cons x xs ih =>
        intro pos
        simp only [List.map_cons, headers, ih, INode.header, INode.bytes, if_true]
  have hpayload : payload (xs.map fun x => ({ x with id := 0 } : INode)) = payload xs := by
    rw [payload, payload, List.flatMap_map]
    rfl
  rw [image, hheaders, hpayload, List.length_map, image]

/-- The second half of the round trip: a node that was read from page `p` is
written to page `q`. -/
theorem write_again {n n₁ : Node} {m : Mem} {p q : Nat} (hleaf : n₁.isLeaf_ = true)
    (hinodes : n₁.inodes = n.inodes.map fun x => { x with id := 0 })
    (hlen : n.inodes.length ≤ 0xffff)
    (himage : HoldsImage m (Page.ptr m p) true n.inodes) (hflags : Page.ClearOrLeaf m q)
    (hroom : Page.HasRoom m q (image true n.inodes).length)
    (hapart : Page.ApartFrom m q (Page.ptr m p) (image true n.inodes).length) :
    ∃ m', n₁.write m q = .ok m' ∧
      m'.read (Page.ptr m q) (image true n.inodes).length
        = m'.read (Page.ptr m p) (image true n.inodes).length := by
  have himg : image true n₁.inodes = image true n.inodes := by
    rw [hinodes, image_leaf_congr]
  obtain ⟨m', hwrite, hholds, -, hptr, hm'⟩ := write_leaf hleaf
    (by rw [hinodes, List.length_map]; exact hlen) hflags (by rw [himg]; exact hroom)
  refine ⟨m', hwrite, ?_⟩
  have hq := hholds.image
  rw [HoldsImage, himg, hptr] at hq
  -- neither the header fields nor the data area of `q` touch the first page
  have hp : m'.read (Page.ptr m p) (image true n.inodes).length = image true n.inodes := by
    rw [hm', himg, read_write_of_disjoint _ _ (by have := hapart.2; omega), withHeader,
      Page.setCount, store, read_write_of_disjoint _ _ ?_, Page.unsetOverflow, store,
      read_write_of_disjoint _ _ ?_, Page.setFlags, store, read_write_of_disjoint _ _ ?_]
    · exact himage
    all_goals
      have := hapart.1
      simp only [Clear, length_toLE] at this ⊢
      omega
  rw [hq, hp]

end Node

/-- A leaf node with a nested bucket and a plain value. -/
def sampleLeaf : Node where
  isLeaf_ := true
  unbalanced_ := false
  key_ := []
  id_ := 0
  parent_ := none
  inodes := [{ flags := BucketLeafFlag, key := [98] }, { key := [98, 0], value := [1, 2] }]

/-- Memory with `sampleLeaf` written to the page at 4096. -/
def sampleLeafMem : Mem :=
  (withHeader sampleMem 4096 sampleLeaf).write 4128 (image true sampleLeaf.inodes)

end BoltCpp
