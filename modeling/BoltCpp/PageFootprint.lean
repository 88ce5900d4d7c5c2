/-
BoltCpp/PageFootprint.lean

Which bytes `Node::write` sets for a leaf node.

`Page.ranges` reads the element headers of a page and lists what they address:
all headers, then the key and the value of each element.  After a write these
ranges tile the data area, from `ptr_` over as many bytes as `size` counts
behind the page header (`write_footprint`).  Apart from them only the fields
`flags_`, `count_` and `overflow_` of the `Page` object change, which is what
`size` counts the page header for.
-/
import BoltCpp.LeafPage
import BoltCpp.Lib.Tiling

namespace BoltCpp

open ByteMem ByteMem.Mem Tiling

namespace Page

/-! ### What a page addresses -/

section

variable (m : Mem) (p i : Nat)

/-- Element `i` of a leaf page. -/
def elementAt : Nat := leafPageElement m p (toUInt16 (i : Int))

def headerRange : Tiling.Range := ⟨elementAt m p i, leafPageElementSize⟩

def keyRange : Tiling.Range where
  start := elementAt m p i + (LeafPageElement.pos m (elementAt m p i)).toNat
  length := (LeafPageElement.ksize m (elementAt m p i)).toNat

def valueRange : Tiling.Range where
  start := elementAt m p i + (LeafPageElement.pos m (elementAt m p i)).toNat
    + (LeafPageElement.ksize m (elementAt m p i)).toNat
  length := (LeafPageElement.vsize m (elementAt m p i)).toNat

end

/-- All headers, and then key and value of each element. -/
def ranges (m : Mem) (p : Nat) : List Tiling.Range :=
  let n := (count m p).toNat
  (List.range n).map (headerRange m p)
    ++ (List.range n).flatMap fun i => [keyRange m p i, valueRange m p i]

/-- A byte of `flags_`, `count_` or `overflow_`. -/
def InHeader (p a : Nat) : Prop := (p + 8 ≤ a ∧ a < p + 10) ∨ (p + 12 ≤ a ∧ a < p + 20)

/-- **The ranges of a leaf page tile its image.** -/
theorem ranges_tile {m : Mem} {p : Nat} {xs : List INode} (hcount : (count m p).toNat = xs.length)
    (hlen : xs.length ≤ 0xffff) (hsize : (image true xs).length < 2 ^ 32)
    (himage : HoldsImage m (ptr m p) true xs) :
    Tiles (ptr m p) (ranges m p) (ptr m p + (image true xs).length) := by
  have helem : ∀ i, i < xs.length → elementAt m p i = ptr m p + 16 * i :=
    fun i hi => leafPageElement_of_lt m p (by omega)
  have hheaders : Tiles (ptr m p) ((List.range xs.length).map (headerRange m p))
      (ptr m p + 16 * xs.length) := by
    rw [List.map_eq_flatMap]
    have hall := tiles_flatMap_range (n := xs.length) (fun i => [headerRange m p i])
      (fun i => ptr m p + 16 * i) ?_
    · simpa only [Nat.mul_zero, Nat.add_zero] using hall
    intro i hi
    rw [tiles_cons, tiles_nil]
    refine ⟨helem i hi, ?_⟩
    show elementAt m p i + leafPageElementSize = ptr m p + 16 * (i + 1)
    rw [helem i hi, leafPageElementSize]
    omega
  have hpayload : Tiles (ptr m p + 16 * xs.length)
      ((List.range xs.length).flatMap fun i => [keyRange m p i, valueRange m p i])
      (ptr m p + 16 * xs.length + (payload xs).length) := by
    have hall := tiles_flatMap_range (n := xs.length)
      (fun i => [keyRange m p i, valueRange m p i])
      (fun i => ptr m p + 16 * xs.length + (payload (xs.take i)).length) ?_
    · simpa only [List.take_zero, payload_nil, List.length_nil, Nat.add_zero,
        List.take_length] using hall
    intro i hi
    obtain ⟨hpos, hksize, hvsize⟩ := himage.leafFields hsize (List.getElem?_eq_getElem hi)
    rw [← helem i hi] at hpos hksize hvsize
    -- the key lies behind the headers and the inodes before this one
    have hkey : (keyRange m p i).start
        = ptr m p + 16 * xs.length + (payload (xs.take i)).length := by
      show elementAt m p i + (LeafPageElement.pos m (elementAt m p i)).toNat = _
      rw [hpos, helem i hi, keyPos]
      omega
    have hnext : (payload (xs.take (i + 1))).length
        = (payload (xs.take i)).length + (xs[i].key.length + xs[i].value.length) := by
      rw [List.take_succ_eq_append_getElem hi, payload, List.flatMap_append,
        List.length_append, List.flatMap_singleton, INode.bytes, List.length_append, payload]
    rw [tiles_cons, tiles_cons, tiles_nil]
    refine ⟨hkey, rfl, ?_⟩
    show (keyRange m p i).start + (LeafPageElement.ksize m (elementAt m p i)).toNat
      + (LeafPageElement.vsize m (elementAt m p i)).toNat = _
    rw [hkey, hnext, hksize, hvsize]
    omega
  rw [ranges, hcount, length_image, ← Nat.add_assoc]
  exact tiles_append hheaders hpayload

end Page

/-- Setting up the header changes its three fields only. -/
theorem withHeader_of_outside (m : Mem) {p a : Nat} (n : Node) (h : ¬ Page.InHeader p a) :
    withHeader m p n a = m a := by
  rw [Page.InHeader] at h
  rw [withHeader, Page.setCount, store_of_outside _ (by omega), Page.unsetOverflow,
    store_of_outside _ (by omega), Page.setFlags, store_of_outside _ (by omega)]

namespace Node

/-- The bytes of the data area that `size` counts. -/
def areaSize (n : Node) : Nat := (n.size - pageHeaderSize).toNat

theorem areaSize_eq {n : Node} (h : n.serialisedSize < 2 ^ 31) :
    n.areaSize = (image n.isLeaf_ n.inodes).length := by
  rw [areaSize, size_eq h, serialisedSize]
  omega

/-- **`size` is the footprint of `write`.**  For a leaf node that fits a page
whose data area is clear of the object, `write` changes the three header
fields and the `areaSize` bytes from `ptr_` on, and no other byte; a
buffer of `size` bytes is enough.  The headers, keys and values that the page
then addresses tile the area, each byte of it in one of them, and `size` is
what they take up together with the page header. -/
theorem write_footprint {n : Node} {m : Mem} {p : Nat} (hleaf : n.isLeaf_ = true)
    (hlen : n.inodes.length ≤ 0xffff) (hsize : n.serialisedSize < 2 ^ 31)
    (hroom : Page.HasRoom m p n.areaSize) :
    ∃ m', n.write m p = .ok m' ∧ Page.ptr m' p = Page.ptr m p ∧
      (∀ a, ¬ Page.InHeader p a → a < Page.ptr m p ∨ Page.ptr m p + n.areaSize ≤ a →
        m' a = m a) ∧
      (∀ a, ¬ Page.InHeader p a → m' a ≠ m a →
        Page.ptr m p ≤ a ∧ (a : Int) < Page.ptr m p + n.size) ∧
      Tiles (Page.ptr m p) (Page.ranges m' p) (Page.ptr m p + n.areaSize) ∧
      (∀ a, Page.ptr m p ≤ a → a < Page.ptr m p + n.areaSize →
        ∃! i : Nat, ∃ r, (Page.ranges m' p)[i]? = some r ∧ a ∈ r) ∧
      n.size = pageHeaderSize + total (Page.ranges m' p) ∧
      ∀ v : Int, n.sizeLessThan v = true ↔ pageHeaderSize + total (Page.ranges m' p) < v := by
  have harea := areaSize_eq hsize
  rw [harea, hleaf] at hroom
  have hwrite := Node.write_eq (m := m) (p := p) hlen (by rwa [hleaf]) (by rw [hleaf]; simp)
  rw [hleaf] at hwrite harea
  have hsame := Page.sameHeader_write (withHeader m p n) (p := p) (a := Page.ptr m p)
    (image true n.inodes) hroom
  have hptr := hsame.ptr.trans (ptr_withHeader m p n)
  have himage := holdsImage_write (withHeader m p n) (Page.ptr m p) true n.inodes
  generalize hm' : (withHeader m p n).write (Page.ptr m p) (image true n.inodes) = m' at *
  have hlt : (image true n.inodes).length < 2 ^ 32 := by
    rw [serialisedSize, hleaf] at hsize
    omega
  have hcount : (Page.count m' p).toNat = n.inodes.length := by
    rw [hsame.count, count_withHeader, toNat_toUInt32 (by omega)]
  have htiles := Page.ranges_tile hcount hlen hlt (by rwa [hptr])
  rw [hptr, ← harea] at htiles
  have htotal : n.size = pageHeaderSize + total (Page.ranges m' p) := by
    have hsum := htiles.total_eq
    rw [size_eq hsize, serialisedSize, hleaf, ← harea]
    omega
  have hframe : ∀ a, ¬ Page.InHeader p a →
      a < Page.ptr m p ∨ Page.ptr m p + n.areaSize ≤ a → m' a = m a := by
    intro a hheader hout
    rw [harea] at hout
    rw [← hm', ← withHeader_of_outside m n hheader]
    rcases hout with h | h
    · exact write_of_lt _ _ h
    · exact write_of_ge _ _ h
  refine ⟨m', hwrite, hptr, hframe, ?_, htiles, fun a => htiles.existsUnique, htotal, ?_⟩
  · intro a hheader hchanged
    have hin : ¬ (a < Page.ptr m p ∨ Page.ptr m p + n.areaSize ≤ a) :=
      fun hout => hchanged (hframe a hheader hout)
    have hle := htiles.total_eq
    omega
  · intro v
    rw [sizeLessThan, decide_eq_true_eq, htotal]

/-- Two headers of 16 bytes, keys of one and two bytes, a value of two. -/
theorem write_footprint_sample :
    ∃ m', sampleLeaf.write sampleMem 4096 = .ok m' ∧
      Tiles 4128 (Page.ranges m' 4096) 4165 := by
  obtain ⟨m', hwrite, -, -, -, htiles, -⟩ := write_footprint (n := sampleLeaf) (m := sampleMem)
    (p := 4096) rfl (by decide) (by decide) (Or.inr (by decide))
  exact ⟨m', hwrite, htiles⟩

/-- A page whose data area starts at the `Page` object itself. -/
def ownPage : Mem := Page.construct (fun _ => 0) 4096 3 0 4096

/-- A leaf with one key and no value. -/
def oneKeyLeaf : Node := { sampleLeaf with inodes := [{ key := [98] }] }

/-- The field `vsize` of the first element is stored over `count_`. -/
theorem write_ownPage :
    ∃ m', oneKeyLeaf.write ownPage 4096 = .ok m' ∧ Page.count m' 4096 = 0 := by
  have hcount : (oneKeyLeaf.write ownPage 4096).toOption.map (Page.count · 4096) = some 0 := by
    decide +kernel
  cases hwrite : oneKeyLeaf.write ownPage 4096 with
  | error e =>
    rw [hwrite] at hcount
    cases hcount
  | ok m' =>
    rw [hwrite] at hcount
    exact ⟨m', rfl, Option.some.inj hcount⟩

/-- The flags of a page lie in front of its data area, and a page that
overlaps its data area does not address what was written to it. -/
theorem write_sets_flags :
    (∃ m', sampleLeaf.write sampleMem 4096 = .ok m' ∧
      Page.flags m' 4096 ≠ Page.flags sampleMem 4096 ∧
      ¬ ∀ a, a < Page.ptr sampleMem 4096 ∨ Page.ptr sampleMem 4096 + sampleLeaf.areaSize ≤ a →
        m' a = sampleMem a) ∧
    ∃ m', oneKeyLeaf.write ownPage 4096 = .ok m' ∧
      ¬ Tiles (Page.ptr ownPage 4096) (Page.ranges m' 4096)
        (Page.ptr ownPage 4096 + oneKeyLeaf.areaSize) := by
  constructor
  · obtain ⟨m', hwrite, hholds, -, -, -⟩ := write_leaf (n := sampleLeaf) (m := sampleMem)
      (p := 4096) rfl (by decide) (Or.inl rfl) (Or.inr (by decide))
    have hflags : Page.flags m' 4096 ≠ Page.flags sampleMem 4096 := by
      rw [hholds.flags]
      decide
    refine ⟨m', hwrite, hflags, fun h => hflags ?_⟩
    have hptr : Page.ptr sampleMem 4096 = 4128 := rfl
    rw [Page.flags, Page.flags, load_congr fun i hi => h (4096 + 8 + i) (Or.inl (by omega))]
  · obtain ⟨m', hwrite, hcount⟩ := write_ownPage
    refine ⟨m', hwrite, fun htiles => ?_⟩
    have hnone : Page.ranges m' 4096 = [] := by
      rw [Page.ranges, hcount]
      rfl
    have harea : oneKeyLeaf.areaSize = 17 := rfl
    rw [hnone, tiles_nil, harea] at htiles
    omega

end Node

end BoltCpp
