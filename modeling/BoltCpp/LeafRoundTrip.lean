/-
BoltCpp/LeafRoundTrip.lean

Leaf pages round-trip, with slices as they are in memory.

A node is written to a page, read from it into another node, and written from
there to a second page (`NodeRef.leaf_round_trip`).  The slices of the node that
was read refer to the first page, so the second page has to lie apart from it;
and `write` has to keep off the bytes of the first node's keys and values.  A
node that was read from a page and is written back to it with one inode more
does not come back (`NodeRef.written_back`).
-/
import BoltCpp.SliceRef

namespace BoltCpp

open ByteMem ByteMem.Mem

namespace NodeRef

variable {n n₀ n₁ : NodeRef} {m m' : Mem} {p : Nat} {xs : List INode}

/-! ### What the slices of a node that was read refer to -/

theorem read_inodes (hread : n₀.read m p = .ok n₁) :
    (List.range (Page.count m p).toNat).mapM
      (readInode m p (decide (Page.flags m p &&& LeafPageFlag ≠ 0))) = .ok n₁.inodes := by
  obtain ⟨inodes, hloop, hread⟩ := ok_of_bind hread
  rw [hloop]
  cases inodes with
  | nil =>
      cases hread
      rfl
  | cons first rest =>
      dsimp only at hread
      split at hread
      · cases hread
        rfl
      · cases hread

theorem readInode_leaf {i : Nat} {y : INodeRef} (h : readInode m p true i = .ok y) :
    y.key = ⟨Page.elementAt m p i + (LeafPageElement.pos m (Page.elementAt m p i)).toNat,
        (LeafPageElement.ksize m (Page.elementAt m p i)).toNat⟩ ∧
      y.value = ⟨Page.elementAt m p i + (LeafPageElement.pos m (Page.elementAt m p i)).toNat
          + (LeafPageElement.ksize m (Page.elementAt m p i)).toNat,
        (LeafPageElement.vsize m (Page.elementAt m p i)).toNat⟩ := by
  simp only [readInode, if_true] at h
  split at h
  · cases h
  · cases h
    exact ⟨rfl, rfl⟩

/-- **They refer to the data area of the page.** -/
theorem read_covers (hread : n₀.read m p = .ok n₁) (hflags : Page.flags m p &&& LeafPageFlag ≠ 0)
    (hcount : (Page.count m p).toNat = xs.length) (hlen : xs.length ≤ 0xffff)
    (himage : HoldsImage m (Page.ptr m p) true xs) (hsize : (image true xs).length < 2 ^ 32)
    {a : Nat} (ha : n₁.Covers a) :
    Page.ptr m p ≤ a ∧ a < Page.ptr m p + (image true xs).length := by
  have hloop := read_inodes hread
  rw [decide_eq_true hflags] at hloop
  obtain ⟨hn₁, hget⟩ := mapM_range_inv hloop
  obtain ⟨y, hy, ha⟩ := ha
  obtain ⟨i, hi, rfl⟩ := List.getElem_of_mem hy
  obtain ⟨hkey, hvalue⟩ := readInode_leaf (hget i _ (List.getElem?_eq_getElem hi))
  have hlt : i < xs.length := by omega
  have hx : xs[i]? = some xs[i] := List.getElem?_eq_getElem hlt
  have helem : Page.elementAt m p i = Page.ptr m p + 16 * i :=
    Page.leafPageElement_of_lt m p (by omega)
  obtain ⟨hpos, hksize, hvsize⟩ := himage.leafFields hsize hx
  have hle := length_payload_take_le hx
  rw [helem, hpos, hksize, keyPos] at hkey
  rw [helem, hpos, hksize, hvsize, keyPos] at hvalue
  rw [INode.bytes, List.length_append] at hle
  rw [length_image]
  rcases ha with ha | ha
  · rw [hkey] at ha
    obtain ⟨hge, hlt'⟩ := ha
    dsimp only at hge hlt'
    omega
  · rw [hvalue] at ha
    obtain ⟨hge, hlt'⟩ := ha
    dsimp only at hge hlt'
    omega

/-- A page that lies apart from these bytes can be written to. -/
theorem keepsOff_of_apart {q a n : Nat} (hcovers : ∀ x, n₁.Covers x → a ≤ x ∧ x < a + n)
    (hsize : n₁.imageSize = n) (hapart : Page.ApartFrom m q a n) : n₁.KeepsOff m q := by
  intro x hx hin
  obtain ⟨hge, hlt⟩ := hcovers x hx
  obtain ⟨hclear, harea⟩ := hapart
  rcases hin with hheader | hdata
  · rw [Page.InHeader] at hheader
    rcases hclear with h | h <;> omega
  · rw [hsize] at hdata
    omega

/-! ### The round trip -/

/-- **Encoding.** -/
theorem write_leaf (hleaf : n.isLeaf_ = true) (hlen : n.inodes.length ≤ 0xffff)
    (hflags : Page.ClearOrLeaf m p) (hroom : Page.HasRoom m p n.imageSize)
    (hoff : n.KeepsOff m p) :
    ∃ m', n.write m p = .ok m' ∧ Page.HoldsLeaf m' p (n.deref m).inodes ∧
      Page.id m' p = Page.id m p ∧ Page.ptr m' p = Page.ptr m p ∧
      (n.deref m').inodes = (n.deref m).inodes := by
  have hlen' : (n.deref m).inodes.length ≤ 0xffff := by
    rw [deref, List.length_map]
    exact hlen
  obtain ⟨m', hwrite, hholds, hid, hptr, -⟩ := Node.write_leaf (n := n.deref m) hleaf hlen' hflags
    (by rw [length_image_deref]; exact hroom)
  rw [← write_deref hroom hoff] at hwrite
  exact ⟨m', hwrite, hholds, hid, hptr, inodes_deref_write hwrite hroom hoff⟩

/-- **Decoding.** -/
theorem read_leaf (n₀ : NodeRef) (hholds : Page.HoldsLeaf m p xs) (hlen : xs.length ≤ 0xffff)
    (hsize : (image true xs).length < 2 ^ 32) (hkeys : ∀ x ∈ xs, x.key ≠ []) :
    ∃ n₁, n₀.read m p = .ok n₁ ∧ n₁.isLeaf_ = true ∧ n₁.id_ = Page.id m p ∧
      (n₁.deref m).inodes = xs.map (fun x => { x with id := 0 }) ∧
      (∀ x, xs.head? = some x → n₁.key_.bytes m = x.key) ∧
      ∀ a, n₁.Covers a → Page.ptr m p ≤ a ∧ a < Page.ptr m p + (image true xs).length := by
  have hflags : Page.flags m p &&& LeafPageFlag ≠ 0 := by
    rw [hholds.flags]
    decide
  have hbytes := Node.read_of_image (n₀.deref m) hflags hholds.count hlen hholds.image hsize hkeys
  rw [← read_deref] at hbytes
  obtain ⟨n₁, hread, heq⟩ := ok_of_map hbytes
  have hisLeaf : n₁.isLeaf_ = true := congrArg Node.isLeaf_ heq
  have hid : n₁.id_ = Page.id m p := congrArg Node.id_ heq
  have hkey : n₁.key_.bytes m = (xs.head?.map INode.key).getD (n₀.deref m).key_ :=
    congrArg Node.key_ heq
  refine ⟨n₁, hread, hisLeaf, hid, congrArg Node.inodes heq, fun x hx => ?_, fun a ha =>
    read_covers hread hflags hholds.count hlen hholds.image hsize ha⟩
  rw [hkey, hx]
  rfl

/-- **Writing again.**  The slices of a node that was read from page `p` refer
to its data area, so `write` to a page apart from it keeps off them. -/
theorem write_again {q : Nat} (hleaf : n₁.isLeaf_ = true)
    (hinodes : (n₁.deref m).inodes = (n.deref m').inodes.map fun x => { x with id := 0 })
    (hlen : n.inodes.length ≤ 0xffff)
    (himage : HoldsImage m (Page.ptr m p) true (n.deref m').inodes)
    (hcovers : ∀ a, n₁.Covers a → Page.ptr m p ≤ a ∧ a < Page.ptr m p + n.imageSize)
    (hflags : Page.ClearOrLeaf m q) (hroom : Page.HasRoom m q n.imageSize)
    (hapart : Page.ApartFrom m q (Page.ptr m p) n.imageSize) :
    ∃ m'', n₁.write m q = .ok m'' ∧
      m''.read (Page.ptr m q) n.imageSize = m''.read (Page.ptr m p) n.imageSize := by
  have himg : (image true (n.deref m').inodes).length = n.imageSize := length_image_deref n m' true
  have hsize : n₁.imageSize = n.imageSize := by
    rw [← length_image_deref n₁ m true, hinodes, Node.image_leaf_congr, himg]
  have hoff : n₁.KeepsOff m q := keepsOff_of_apart hcovers hsize hapart
  have hlen' : (n.deref m').inodes.length ≤ 0xffff := by
    rw [deref, List.length_map]
    exact hlen
  have hagain := Node.write_again (show (n₁.deref m).isLeaf_ = true from hleaf) hinodes hlen'
    himage hflags (by rw [himg]; exact hroom) (by rw [himg]; exact hapart)
  rw [himg, ← write_deref (hsize ▸ hroom) hoff] at hagain
  exact hagain

/-- **Leaf pages round-trip.**  If `write` keeps off the bytes that the node
refers to, the page holds its inodes in order, and the node refers to the same
bytes as before.  Reading the page into any node gives the inodes back, and
writing that node to a second page leaves the same bytes in both data areas. -/
theorem leaf_round_trip (hleaf : n.isLeaf_ = true) (hlen : n.inodes.length ≤ 0xffff)
    (hkeys : ∀ x ∈ n.inodes, x.key.size_ ≠ 0) (hsize : (n.deref m).serialisedSize < 2 ^ 31)
    (hflags : Page.ClearOrLeaf m p) (hroom : Page.HasRoom m p n.imageSize)
    (hoff : n.KeepsOff m p) :
    ∃ m', n.write m p = .ok m' ∧ (Page.count m' p).toNat = n.inodes.length ∧
      (n.deref m').inodes = (n.deref m).inodes ∧
      (∀ (i : Nat) (x : INodeRef), n.inodes[i]? = some x →
        LeafPageElement.entry m' (Page.leafPageElement m' p (toUInt16 (i : Int)))
          = (x.deref m).entry) ∧
      ∀ n₀ : NodeRef, ∃ n₁, n₀.read m' p = .ok n₁ ∧
        n₁.isLeaf_ = true ∧ n₁.id_ = Page.id m p ∧
        (n₁.deref m').inodes.map INode.entry = (n.deref m).inodes.map INode.entry ∧
        (∀ x, n.inodes.head? = some x → n₁.key_.bytes m' = x.key.bytes m) ∧
        ∀ q, Page.ClearOrLeaf m' q → Page.HasRoom m' q n.imageSize →
          Page.ApartFrom m' q (Page.ptr m' p) n.imageSize →
          ∃ m'', n₁.write m' q = .ok m'' ∧
            m''.read (Page.ptr m' q) n.imageSize = m''.read (Page.ptr m' p) n.imageSize := by
  have himg : (image true (n.deref m).inodes).length = n.imageSize := length_image_deref n m true
  have hlt : n.imageSize < 2 ^ 32 := by
    have hisLeaf : (n.deref m).isLeaf_ = true := hleaf
    rw [Node.serialisedSize, hisLeaf, himg] at hsize
    omega
  have hlen' : (n.deref m).inodes.length = n.inodes.length := List.length_map _
  have hkeys' : ∀ x ∈ (n.deref m).inodes, x.key ≠ [] := by
    intro x hx
    obtain ⟨y, hy, rfl⟩ := List.mem_map.mp hx
    have hne := hkeys y hy
    rw [← SliceRef.length_bytes y.key m] at hne
    exact fun h => hne (List.length_eq_zero_iff.mpr h)
  obtain ⟨m', hwrite, hholds, hid, -, hsame⟩ := write_leaf hleaf hlen hflags hroom hoff
  refine ⟨m', hwrite, hholds.count.trans hlen', hsame, ?_, ?_⟩
  · intro i x hx
    have hi : i < n.inodes.length := (List.getElem?_eq_some_iff.mp hx).1
    have hx' : (n.deref m).inodes[i]? = some (x.deref m) := by
      rw [deref, List.getElem?_map, hx]
      rfl
    have helem := Page.leafPageElement_of_lt m' p (by omega : i < 65536)
    obtain ⟨hf, hk, hv⟩ := hholds.image.leafElement (by rw [himg]; exact hlt) hx'
    rw [helem, LeafPageElement.entry, hf, hk, hv, INode.entry]
  · intro n₀
    obtain ⟨n₁, hread, hleaf₁, hid₁, hinodes, hkey, hcovers⟩ := read_leaf n₀ hholds
      (by rw [hlen']; exact hlen) (by rw [himg]; exact hlt) hkeys'
    refine ⟨n₁, hread, hleaf₁, hid₁.trans hid, ?_, ?_, ?_⟩
    · rw [hinodes, List.map_map]
      rfl
    · intro x hx
      refine hkey (x.deref m) ?_
      rw [deref, List.head?_map, hx]
      rfl
    · intro q hq hroomq hapart
      rw [himg] at hcovers
      exact write_again hleaf₁ hinodes hlen hholds.image hcovers hq hroomq hapart

/-- `sampleLeaf`, whose slices refer to the five bytes at 8192. -/
def sampleNode : NodeRef where
  isLeaf_ := true
  unbalanced_ := false
  key_ := {}
  id_ := 0
  parent_ := none
  inodes := [{ flags := BucketLeafFlag, key := ⟨8193, 1⟩ },
    { key := ⟨8193, 2⟩, value := ⟨8195, 2⟩ }]

def sampleNodeMem : Mem := sampleMem.write 8192 [97, 98, 0, 1, 2]

theorem keepsOff_sampleNode : sampleNode.KeepsOff sampleNodeMem 4096 := by
  have hptr : Page.ptr sampleNodeMem 4096 = 4128 := by decide
  have hsize : sampleNode.imageSize = 37 := rfl
  rintro a ⟨x, hx, ha⟩ hin
  have hge : 8193 ≤ a := by
    simp only [sampleNode, List.mem_cons, List.not_mem_nil, or_false] at hx
    rcases hx with rfl | rfl <;> simp only [INodeRef.Covers, SliceRef.Covers] at ha <;> omega
  rw [Writes, Page.InHeader, hptr, hsize] at hin
  omega

theorem leaf_round_trip_sample : ∃ m', sampleNode.write sampleNodeMem 4096 = .ok m' ∧
    LeafPageElement.entry m' (Page.leafPageElement m' 4096 1) = ⟨0, [98, 0], [1, 2]⟩ ∧
    ∃ n₁, sampleNode.read m' 4096 = .ok n₁ ∧ n₁.key_.bytes m' = [98] := by
  obtain ⟨m', hwrite, -, -, hentry, hread⟩ := leaf_round_trip (p := 4096) (n := sampleNode)
    (m := sampleNodeMem) rfl (by decide) (by decide) (by decide) (Or.inl (by decide))
    (Or.inr (by decide)) keepsOff_sampleNode
  obtain ⟨n₁, hn₁, -, -, -, hkey, -⟩ := hread sampleNode
  exact ⟨m', hwrite, (hentry 1 _ rfl).trans (by decide), n₁, hn₁,
    (hkey _ rfl).trans (by decide)⟩

/-! ### Back to where it was read from -/

/-- Memory with `sampleLeaf` on the page at 4096, and the key `a` at 8192. -/
def backMem : Mem := sampleLeafMem.write 8192 [97]

/-- What `read` of that page gives, and then `put` of the key at 8192. -/
def backNode : NodeRef where
  isLeaf_ := true
  unbalanced_ := false
  key_ := ⟨4160, 1⟩
  id_ := 7
  parent_ := none
  inodes := [{ key := ⟨8192, 1⟩ },
    { flags := BucketLeafFlag, key := ⟨4160, 1⟩, value := ⟨4161, 0⟩ },
    { key := ⟨4161, 2⟩, value := ⟨4163, 2⟩ }]

/-- **A node that is written back to its page does not come back.**  The header
of the third element goes where the keys were, before the third key is copied
from there: element 2 has not the key and value that inode 2 had before, and
element 1 not those that inode 1 has afterwards. -/
theorem written_back :
    (sampleNode.read backMem 4096 >>= fun n =>
        n.put backMem (some 1) ⟨8192, 1⟩ ⟨8192, 1⟩ {} 0 0) = .ok backNode ∧
      backNode.isLeaf_ = true ∧ backNode.inodes.length ≤ 0xffff ∧
      (∀ x ∈ backNode.inodes, x.key.size_ ≠ 0) ∧
      (backNode.deref backMem).serialisedSize < 2 ^ 31 ∧
      Page.flags backMem 4096 = LeafPageFlag ∧
      Page.HasRoom backMem 4096 backNode.imageSize ∧
      ∃ m', backNode.write backMem 4096 = .ok m' ∧
        (backNode.deref backMem).inodes.map INode.entry
          = [⟨0, [97], []⟩, ⟨BucketLeafFlag, [98], []⟩, ⟨0, [98, 0], [1, 2]⟩] ∧
        LeafPageElement.entry m' (Page.leafPageElement m' 4096 2) = ⟨0, [0, 0], [0, 18]⟩ ∧
        (backNode.deref m').inodes.map INode.entry
          = [⟨0, [97], []⟩, ⟨BucketLeafFlag, [0], []⟩, ⟨0, [0, 0], [0, 18]⟩] ∧
        LeafPageElement.entry m' (Page.leafPageElement m' 4096 1) = ⟨BucketLeafFlag, [98], []⟩ :=
  ⟨by decide, rfl, by decide, by decide, by decide, by decide, Or.inr (by decide), _, rfl,
    by decide, by decide, by decide, by decide⟩

end NodeRef

end BoltCpp
