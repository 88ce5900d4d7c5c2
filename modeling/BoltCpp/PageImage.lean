/-
BoltCpp/PageImage.lean

What `Node::write` leaves in a page.

The encoder is one loop with two moving pointers: element `i` of the header
array, and the write pointer `b` for keys and values.  The two areas are
disjoint, so the whole loop is one block written at `ptr_` (`writeLoop_eq`):

    image inodes = headers ++ payload

`headers` records, for each inode, the distance from its own header to its
key.  That block does not mention `ptr_`, which is why equal inode lists have
equal data areas.  `Node.write_eq` states the result for a whole page whose
data area is clear of the `Page` object; `write_circular` is the path on
which the cycle check of the branch arm fires.
-/
import BoltCpp.Node

namespace BoltCpp

open ByteMem ByteMem.Mem

/-! ### Little-endian fields -/

theorem toLE_mod (k v : Nat) : toLE k (v % 256 ^ k) = toLE k v := by
  induction k generalizing v with
  | zero => rfl
  | succ k ih =>
      have hlow : UInt8.ofNat (v % 256 ^ (k + 1)) = UInt8.ofNat v := by
        apply UInt8.toNat_inj.mp
        simp only [UInt8.toNat_ofNat']
        exact Nat.mod_mod_of_dvd v ⟨256 ^ k, pow_succ' 256 k⟩
      have hhigh : v % 256 ^ (k + 1) / 256 = v / 256 % 256 ^ k := by
        rw [pow_succ', Nat.mod_mul_right_div_self]
      rw [toLE, toLE, hlow, hhigh, ih]

/-- A 32-bit field keeps the low bits of what is stored in it. -/
theorem toLE_toUInt32 (v : Nat) : toLE 4 (toUInt32 (v : Int)).toNat = toLE 4 v := by
  have : (toUInt32 (v : Int)).toNat = v % 256 ^ 4 := by
    have h : ((v : Int) % 2 ^ 32).toNat = v % 2 ^ 32 := by omega
    rw [toUInt32, h, UInt32.toNat_ofNat']
    omega
  rw [this, toLE_mod]

/-! ### The two areas -/

namespace INode

/-- The header of an inode whose key is `pos` bytes away from it. -/
def header (isLeaf : Bool) (n : INode) (pos : Nat) : List UInt8 :=
  if isLeaf then
    toLE 4 n.flags.toNat ++ toLE 4 pos ++ toLE 4 n.key.length ++ toLE 4 n.value.length
  else toLE 4 pos ++ toLE 4 n.key.length ++ toLE 8 n.id.toNat

@[simp] theorem length_header (isLeaf : Bool) (n : INode) (pos : Nat) :
    (n.header isLeaf pos).length = 16 := by
  cases isLeaf <;> simp [header]

/-- The bytes an inode adds behind the headers. -/
def bytes (n : INode) : List UInt8 := n.key ++ n.value

end INode

/-- The header array; `pos` is the distance from the first header to the
first key. -/
def headers (isLeaf : Bool) : List INode → Nat → List UInt8
  | [], _ => []
  | n :: rest, pos => n.header isLeaf pos ++ headers isLeaf rest (pos + n.bytes.length - 16)

/-- Keys and values, packed. -/
def payload (inodes : List INode) : List UInt8 := inodes.flatMap INode.bytes

/-- The data area of a page that holds `inodes`. -/
def image (isLeaf : Bool) (inodes : List INode) : List UInt8 :=
  headers isLeaf inodes (16 * inodes.length) ++ payload inodes

@[simp] theorem length_headers (isLeaf : Bool) (inodes : List INode) (pos : Nat) :
    (headers isLeaf inodes pos).length = 16 * inodes.length := by
  induction inodes generalizing pos with
  | nil => rfl
  | cons n rest ih =>
      simp only [headers, List.length_append, INode.length_header, ih, List.length_cons]
      omega

@[simp] theorem payload_nil : payload [] = [] := rfl

@[simp] theorem payload_cons (n : INode) (rest : List INode) :
    payload (n :: rest) = n.bytes ++ payload rest := rfl

theorem length_image (isLeaf : Bool) (inodes : List INode) :
    (image isLeaf inodes).length = 16 * inodes.length + (payload inodes).length := by
  simp [image]

/-! ### Size -/

/-- The bytes a node takes up in a file: page header, element headers, keys
and values. -/
def Node.serialisedSize (n : Node) : Nat :=
  pageHeaderSize + (image n.isLeaf_ n.inodes).length

/-- `size` computes the serialised size as long as it fits an `int`. -/
theorem Node.size_eq {n : Node} (h : n.serialisedSize < 2 ^ 31) :
    n.size = n.serialisedSize := by
  have hsz : n.pageElementSize = 16 := by
    rw [pageElementSize]
    cases n.isLeaf_ <;> rfl
  have hfold : ∀ (xs : List INode) (acc : Nat),
      acc + (16 * xs.length + (payload xs).length) < 2 ^ 31 →
      xs.foldl (fun sz inode =>
          toInt32 (sz + (n.pageElementSize + inode.key.length + inode.value.length))) (acc : Int)
        = (acc + (16 * xs.length + (payload xs).length) : Nat) := by
    intro xs
    induction xs with
    | nil => intro acc _; rfl
    | cons x xs ih =>
        intro acc hacc
        simp only [List.length_cons, payload_cons, List.length_append, INode.bytes] at hacc ⊢
        have hstep : (acc : Int) + (n.pageElementSize + x.key.length + x.value.length)
            = ((acc + (16 + x.key.length + x.value.length) : Nat) : Int) := by
          rw [hsz]
          push_cast
          rfl
        rw [List.foldl_cons, hstep, toInt32_of_lt (by omega), ih _ (by omega)]
        congr 1
        omega
  rw [serialisedSize, length_image] at h
  rw [size, serialisedSize, length_image]
  exact hfold n.inodes pageHeaderSize h

/-! ### Reading an image back -/

/-- Header `i` of the array, with the distance to the key it describes. -/
theorem header_in_headers (isLeaf : Bool) (inodes : List INode) :
    ∀ (pos i : Nat) (x : INode), 16 * inodes.length ≤ pos → inodes[i]? = some x →
      ((headers isLeaf inodes pos).drop (16 * i)).take 16
        = x.header isLeaf (pos + (payload (inodes.take i)).length - 16 * i) := by
  induction inodes with
  | nil => intro pos i x _ hx; simp at hx
  | cons n rest ih =>
      intro pos i x hpos hx
      simp only [List.length_cons] at hpos
      cases i with
      | zero =>
          obtain rfl : n = x := by simpa using hx
          simp [headers]
      | succ i =>
          have hx' : rest[i]? = some x := by simpa using hx
          have hlt : i < rest.length := (List.getElem?_eq_some_iff.mp hx').1
          have hdrop : (headers isLeaf (n :: rest) pos).drop (16 * (i + 1))
              = (headers isLeaf rest (pos + n.bytes.length - 16)).drop (16 * i) := by
            have h16 : 16 * (i + 1) = (n.header isLeaf pos).length + 16 * i := by
              rw [INode.length_header]
              omega
            rw [headers, h16, List.drop_length_add_append]
          rw [hdrop, ih _ i x (by omega) hx', List.take_succ_cons, payload_cons,
            List.length_append]
          congr 1
          omega

/-- The bytes of inode `i` in the payload. -/
theorem bytes_in_payload {inodes : List INode} {i : Nat} {x : INode}
    (hx : inodes[i]? = some x) :
    ∃ rest, (payload inodes).drop (payload (inodes.take i)).length = x.bytes ++ rest := by
  obtain ⟨hlt, hget⟩ := List.getElem?_eq_some_iff.mp hx
  have hsplit : payload inodes
      = payload (inodes.take i) ++ (x.bytes ++ payload (inodes.drop (i + 1))) := by
    conv_lhs => rw [← List.take_append_drop i inodes, List.drop_eq_getElem_cons hlt, hget]
    simp [payload]
  refine ⟨payload (inodes.drop (i + 1)), ?_⟩
  conv_lhs => rw [hsplit]
  rw [List.drop_left]

theorem length_payload_take_le {inodes : List INode} {i : Nat} {x : INode}
    (hx : inodes[i]? = some x) :
    (payload (inodes.take i)).length + x.bytes.length ≤ (payload inodes).length := by
  obtain ⟨rest, hrest⟩ := bytes_in_payload hx
  have hle : (payload (inodes.take i)).length ≤ (payload inodes).length := by
    have hcat : payload inodes = payload (inodes.take i) ++ payload (inodes.drop i) := by
      rw [payload, payload, payload, ← List.flatMap_append, List.take_append_drop]
    rw [hcat, List.length_append]
    exact Nat.le_add_right _ _
  have := congrArg List.length hrest
  simp only [List.length_drop, List.length_append] at this
  omega

/-- The memory at `a` holds the image of `inodes`. -/
def HoldsImage (m : Mem) (a : Nat) (isLeaf : Bool) (inodes : List INode) : Prop :=
  m.read a (image isLeaf inodes).length = image isLeaf inodes

theorem holdsImage_write (m : Mem) (a : Nat) (isLeaf : Bool) (inodes : List INode) :
    HoldsImage (m.write a (image isLeaf inodes)) a isLeaf inodes :=
  read_write_self _ _ _

section Element

variable {m : Mem} {a : Nat} {isLeaf : Bool} {inodes : List INode}

/-- The distance from header `i` to key `i`. -/
def keyPos (inodes : List INode) (i : Nat) : Nat :=
  16 * inodes.length + (payload (inodes.take i)).length - 16 * i

theorem HoldsImage.read_header (h : HoldsImage m a isLeaf inodes) {i : Nat} {x : INode}
    (hx : inodes[i]? = some x) :
    m.read (a + 16 * i) 16 = x.header isLeaf (keyPos inodes i) := by
  have hlt : i < inodes.length := (List.getElem?_eq_some_iff.mp hx).1
  rw [read_sub m a (image isLeaf inodes).length (16 * i) 16
    (by rw [length_image]; omega), h, image, List.drop_append_of_le_length
    (by rw [length_headers]; omega), List.take_append_of_le_length
    (by rw [List.length_drop, length_headers]; omega)]
  exact header_in_headers isLeaf inodes _ i x (Nat.le_refl _) hx

theorem HoldsImage.read_bytes (h : HoldsImage m a isLeaf inodes) {i : Nat} {x : INode}
    (hx : inodes[i]? = some x) :
    m.read (a + 16 * i + keyPos inodes i) x.bytes.length = x.bytes := by
  have hlt : i < inodes.length := (List.getElem?_eq_some_iff.mp hx).1
  have hle := length_payload_take_le hx
  have haddr : a + 16 * i + keyPos inodes i
      = a + (16 * inodes.length + (payload (inodes.take i)).length) := by
    rw [keyPos]
    omega
  obtain ⟨rest, hrest⟩ := bytes_in_payload hx
  -- skip the headers and the bytes of the inodes before this one
  have hdrop : (image isLeaf inodes).drop
      (16 * inodes.length + (payload (inodes.take i)).length) = x.bytes ++ rest := by
    rw [image]
    generalize hh : headers isLeaf inodes (16 * inodes.length) = hs
    have hlen : hs.length = 16 * inodes.length := by rw [← hh, length_headers]
    rw [← hlen, List.drop_length_add_append, hrest]
  rw [haddr, read_sub m a (image isLeaf inodes).length _ _
    (by rw [length_image]; omega), h, hdrop, List.take_left]

/-- The key and the value of inode `i`, apart. -/
theorem HoldsImage.read_key_value (h : HoldsImage m a isLeaf inodes) {i : Nat} {x : INode}
    (hx : inodes[i]? = some x) :
    m.read (a + 16 * i + keyPos inodes i) x.key.length = x.key ∧
      m.read (a + 16 * i + keyPos inodes i + x.key.length) x.value.length = x.value := by
  have hb := h.read_bytes hx
  rw [INode.bytes, List.length_append, read_append] at hb
  exact List.append_inj hb (by simp)

variable (hsize : (image isLeaf inodes).length < 2 ^ 32)

include hsize in
theorem keyPos_lt {i : Nat} {x : INode} (hx : inodes[i]? = some x) :
    keyPos inodes i < 2 ^ 32 := by
  have := length_payload_take_le hx
  rw [length_image] at hsize
  rw [keyPos]
  omega

include hsize in
theorem length_key_value_lt {i : Nat} {x : INode} (hx : inodes[i]? = some x) :
    x.key.length < 2 ^ 32 ∧ x.value.length < 2 ^ 32 := by
  have := length_payload_take_le hx
  rw [length_image] at hsize
  rw [INode.bytes, List.length_append] at this
  omega

end Element

theorem toNat_ofNat_mod {v : Nat} (h : v < 2 ^ 32) :
    (UInt32.ofNat (v % 256 ^ 4)).toNat = v := by
  rw [UInt32.toNat_ofNat']
  omega

/-- Where leaf element `i` of an image finds its key and value. -/
theorem HoldsImage.leafFields {m : Mem} {a : Nat} {inodes : List INode}
    (h : HoldsImage m a true inodes) (hsize : (image true inodes).length < 2 ^ 32)
    {i : Nat} {x : INode} (hx : inodes[i]? = some x) :
    (LeafPageElement.pos m (a + 16 * i)).toNat = keyPos inodes i ∧
      (LeafPageElement.ksize m (a + 16 * i)).toNat = x.key.length ∧
      (LeafPageElement.vsize m (a + 16 * i)).toNat = x.value.length := by
  have hh := h.read_header hx
  simp only [INode.header, if_true, List.append_assoc] at hh
  obtain ⟨hklt, hvlt⟩ := length_key_value_lt hsize hx
  -- the fields in order: each has the ones before it in front
  have hpos : (LeafPageElement.pos m (a + 16 * i)).toNat = keyPos inodes i := by
    rw [LeafPageElement.pos, load_of_read hh (by simp), toNat_ofNat_mod (keyPos_lt hsize hx)]
  rw [← List.append_assoc] at hh
  have hksize : (LeafPageElement.ksize m (a + 16 * i)).toNat = x.key.length := by
    rw [LeafPageElement.ksize, load_of_read hh (by simp), toNat_ofNat_mod hklt]
  rw [← List.append_assoc, ← List.append_nil (toLE 4 x.value.length)] at hh
  have hvsize : (LeafPageElement.vsize m (a + 16 * i)).toNat = x.value.length := by
    rw [LeafPageElement.vsize, load_of_read hh (by simp), toNat_ofNat_mod hvlt]
  exact ⟨hpos, hksize, hvsize⟩

/-- **Leaf element `i` of an image** has the flags, key and value of inode
`i`. -/
theorem HoldsImage.leafElement {m : Mem} {a : Nat} {inodes : List INode}
    (h : HoldsImage m a true inodes) (hsize : (image true inodes).length < 2 ^ 32)
    {i : Nat} {x : INode} (hx : inodes[i]? = some x) :
    LeafPageElement.flags m (a + 16 * i) = x.flags ∧
      LeafPageElement.key m (a + 16 * i) = x.key ∧
      LeafPageElement.value m (a + 16 * i) = x.value := by
  have hh := h.read_header hx
  simp only [INode.header, if_true, List.append_assoc] at hh
  have hflags : LeafPageElement.flags m (a + 16 * i) = x.flags := by
    have hlt := x.flags.toNat_lt
    rw [LeafPageElement.flags, load_of_read_front hh, Nat.mod_eq_of_lt (by omega),
      UInt32.ofNat_toNat]
  obtain ⟨hpos, hksize, hvsize⟩ := h.leafFields hsize hx
  obtain ⟨hk, hv⟩ := h.read_key_value hx
  refine ⟨hflags, ?_, ?_⟩
  · rw [LeafPageElement.key, hpos, hksize, hk]
  · rw [LeafPageElement.value, hpos, hksize, hvsize, hv]

/-- The id in a branch header. -/
theorem id_of_header {m : Mem} {e pos : Nat} {x : INode}
    (h : m.read e 16 = x.header false pos) : BranchPageElement.id m e = x.id := by
  have hlt := x.id.toNat_lt
  simp only [INode.header, Bool.false_eq_true, if_false] at h
  rw [← List.append_nil (toLE 8 x.id.toNat)] at h
  rw [BranchPageElement.id, load_of_read h (by simp), Nat.mod_eq_of_lt (by omega),
    UInt64.ofNat_toNat]

/-- **Branch element `i` of an image** has the child id and key of inode `i`. -/
theorem HoldsImage.branchElement {m : Mem} {a : Nat} {inodes : List INode}
    (h : HoldsImage m a false inodes) (hsize : (image false inodes).length < 2 ^ 32)
    {i : Nat} {x : INode} (hx : inodes[i]? = some x) :
    BranchPageElement.id m (a + 16 * i) = x.id ∧
      BranchPageElement.key m (a + 16 * i) = x.key := by
  have hh := h.read_header hx
  have hid := id_of_header hh
  simp only [INode.header, Bool.false_eq_true, if_false, List.append_assoc] at hh
  obtain ⟨hklt, -⟩ := length_key_value_lt hsize hx
  have hpos : (BranchPageElement.pos m (a + 16 * i)).toNat = keyPos inodes i := by
    rw [BranchPageElement.pos, load_of_read_front hh, toNat_ofNat_mod (keyPos_lt hsize hx)]
  have hksize : (BranchPageElement.ksize m (a + 16 * i)).toNat = x.key.length := by
    rw [BranchPageElement.ksize, load_of_read hh (by simp), toNat_ofNat_mod hklt]
  refine ⟨hid, ?_⟩
  rw [BranchPageElement.key, hpos, hksize, (h.read_key_value hx).1]

/-! ### One element -/

/-- The four stores of the leaf arm fill one header. -/
theorem writeLeafElement_eq (m : Mem) {elem b : Nat} (n : INode) (h : elem ≤ b) :
    Node.writeLeafElement m elem b n = m.write elem (n.header true (b - elem)) := by
  have hpos : ((b : Int) - elem) = ((b - elem : Nat) : Int) := by omega
  simp only [Node.writeLeafElement, store, hpos, toLE_toUInt32, INode.header, if_true]
  -- `pos` is stored last but lies second: commute it into place, then fuse
  have h1 := write_write_append (m.write elem (toLE 4 n.flags.toNat)) (elem + 8)
    (toLE 4 n.key.length) (toLE 4 n.value.length)
  have h2 := write_comm (m.write elem (toLE 4 n.flags.toNat)) (a := elem + 4) (b := elem + 8)
    (toLE 4 (b - elem)) (toLE 4 n.key.length ++ toLE 4 n.value.length) (by simp)
  have h3 := write_write_append m elem (toLE 4 n.flags.toNat) (toLE 4 (b - elem))
  have h4 := write_write_append m elem (toLE 4 n.flags.toNat ++ toLE 4 (b - elem))
    (toLE 4 n.key.length ++ toLE 4 n.value.length)
  simp only [length_toLE, List.length_append, Nat.add_assoc, Nat.reduceAdd] at h1 h3 h4
  rw [h1, ← h2, h3, h4]
  simp only [List.append_assoc]

/-- The three stores of the branch arm fill one header. -/
theorem writeBranchElement_eq (m : Mem) {elem b : Nat} (n : INode) (h : elem ≤ b) :
    Node.writeBranchElement m elem b n = m.write elem (n.header false (b - elem)) := by
  have hpos : ((b : Int) - elem) = ((b - elem : Nat) : Int) := by omega
  simp only [Node.writeBranchElement, store, hpos, toLE_toUInt32, INode.header,
    Bool.false_eq_true, if_false]
  -- `pos` is stored last but lies first
  have h1 := write_write_append m (elem + 4) (toLE 4 n.key.length) (toLE 8 n.id.toNat)
  have h2 := write_comm m (a := elem) (b := elem + 4)
    (toLE 4 (b - elem)) (toLE 4 n.key.length ++ toLE 8 n.id.toNat) (by simp)
  have h3 := write_write_append m elem (toLE 4 (b - elem))
    (toLE 4 n.key.length ++ toLE 8 n.id.toNat)
  simp only [length_toLE, Nat.add_assoc, Nat.reduceAdd] at h1 h3
  rw [h1, ← h2, h3]
  simp only [List.append_assoc]

/-- The id the cycle check reads back. -/
theorem id_writeBranchElement (m : Mem) {elem b : Nat} (n : INode) (h : elem ≤ b) :
    BranchPageElement.id (Node.writeBranchElement m elem b n) elem = n.id := by
  have hlen : (n.header false (b - elem)).length = 16 := n.length_header false _
  have hr := read_write_self m elem (n.header false (b - elem))
  rw [hlen] at hr
  rw [writeBranchElement_eq m n h]
  exact id_of_header hr

/-! ### The loop -/

/-- The data area from `a` to the end of the payload is clear of the object. -/
def Clear (p a n : Nat) : Prop := a + n ≤ p ∨ p + 32 ≤ a

/-- So is every part of it. -/
theorem Clear.mono {p a n a' n' : Nat} (h : Clear p a n) (ha : a ≤ a')
    (hn : a' + n' ≤ a + n) : Clear p a' n' := by
  rcases h with h | h
  · exact Or.inl (by omega)
  · exact Or.inr (by omega)

theorem writeLoop_cons (isLeaf : Bool) {p i b : Nat} {m : Mem} {n : INode}
    {rest : List INode} (hi : i < 65536) (hb : Page.ptr m p + 16 * i + 16 ≤ b)
    (hclear : Clear p (Page.ptr m p + 16 * i) 16) :
    Node.writeLoop isLeaf p (n :: rest) i b m
      = if isLeaf = false ∧ n.id ≠ Page.id m p then
          .error (.exit "write: circular dependency occured\n")
        else Node.writeLoop isLeaf p rest (i + 1) (b + n.bytes.length)
          ((m.write (Page.ptr m p + 16 * i)
            (n.header isLeaf (b - (Page.ptr m p + 16 * i)))).write b n.bytes) := by
  have hle : Page.ptr m p + 16 * i ≤ b := by omega
  have hkv : ∀ m' : Mem, (m'.write b n.key).write (b + n.key.length) n.value
      = m'.write b n.bytes := by
    intro m'
    rw [write_write_append, INode.bytes]
  have hblen : b + n.key.length + n.value.length = b + n.bytes.length := by
    simp [INode.bytes, Nat.add_assoc]
  cases isLeaf with
  | true =>
      have helem := Page.leafPageElement_of_lt m p hi
      simp only [Node.writeLoop, if_true, helem, writeLeafElement_eq m n hle,
        Bool.true_eq_false, false_and, if_false, pure_bind, hkv, hblen]
  | false =>
      have helem := Page.branchPageElement_of_lt m p hi
      -- the check reads the page's id after the element has been stored
      have hpid : Page.id (Node.writeBranchElement m (Page.ptr m p + 16 * i) b n) p
          = Page.id m p := by
        rw [writeBranchElement_eq m n hle]
        exact (Page.sameHeader_write m _ (by simpa [Clear] using hclear)).id
      simp only [Node.writeLoop, Bool.false_eq_true, if_false, helem,
        id_writeBranchElement m n hle, hpid, true_and]
      by_cases hid : n.id = Page.id m p
      · simp only [hid, ne_eq, not_true_eq_false, if_false, pure_bind,
          writeBranchElement_eq m n hle, hkv, hblen]
      · simp only [hid, ne_eq, not_false_eq_true, if_true]
        rfl

/-- What is left of the pointers after one iteration. -/
theorem ptr_after_step {p a b : Nat} {m : Mem} {hdr : List UInt8} (bs : List UInt8) {n : Nat}
    (hlen : hdr.length = 16) (hb : a + 16 ≤ b) (hbs : b + bs.length ≤ a + n)
    (hclear : Clear p a n) : Page.SameHeader m ((m.write a hdr).write b bs) p p := by
  have h1 := Page.sameHeader_write m hdr (hclear.mono (Nat.le_refl _) (by omega))
  have h2 := Page.sameHeader_write (m.write a hdr) bs (hclear.mono (by omega) hbs)
  exact ⟨h2.id.trans h1.id, h2.flags.trans h1.flags, h2.count.trans h1.count,
    h2.overflow.trans h1.overflow, h2.ptr.trans h1.ptr⟩

/-- **The loop writes one block of headers and one block of payload.**  The
induction is on the remaining inodes; the page header is untouched because
both blocks are clear of it, so `ptr_` is the same on every iteration. -/
theorem writeLoop_eq (isLeaf : Bool) (p : Nat) :
    ∀ (rest : List INode) (i b : Nat) (m : Mem), i + rest.length ≤ 65536 →
      Page.ptr m p + 16 * i + 16 * rest.length ≤ b →
      Clear p (Page.ptr m p + 16 * i)
        (b - (Page.ptr m p + 16 * i) + (payload rest).length) →
      (isLeaf = false → ∀ x ∈ rest, x.id = Page.id m p) →
      Node.writeLoop isLeaf p rest i b m
        = .ok ((m.write (Page.ptr m p + 16 * i)
            (headers isLeaf rest (b - (Page.ptr m p + 16 * i)))).write b (payload rest)) := by
  intro rest
  induction rest with
  | nil =>
      intro i b m _ _ _ _
      simp only [Node.writeLoop, headers, payload_nil, write_nil]
      rfl
  | cons n rest ih =>
      intro i b m hi hb hclear hids
      simp only [List.length_cons] at hi hb
      simp only [payload_cons, List.length_append] at hclear
      have hcheck : ¬ (isLeaf = false ∧ n.id ≠ Page.id m p) := by
        rintro ⟨hl, hne⟩
        exact hne (hids hl n (by simp))
      have hclear0 : Clear p (Page.ptr m p + 16 * i) 16 :=
        hclear.mono (Nat.le_refl _) (by omega)
      rw [writeLoop_cons isLeaf (by omega) (by omega) hclear0, if_neg hcheck]
      -- one iteration; the rest of the loop runs on the memory it leaves
      generalize hhdr : n.header isLeaf (b - (Page.ptr m p + 16 * i)) = hdr
      have hhlen : hdr.length = 16 := by rw [← hhdr, INode.length_header]
      have hsame := ptr_after_step (m := m) n.bytes hhlen
        (show Page.ptr m p + 16 * i + 16 ≤ b by omega) (by omega) hclear
      generalize ha : Page.ptr m p + 16 * i = a at *
      have ha' : Page.ptr ((m.write a hdr).write b n.bytes) p + 16 * (i + 1) = a + 16 := by
        rw [hsame.ptr]
        omega
      have hpos : b + n.bytes.length - (a + 16) = b - a + n.bytes.length - 16 := by omega
      rw [ih (i + 1) (b + n.bytes.length) _ (by omega) (by rw [ha']; omega)
        (by
          rw [ha']
          exact hclear.mono (by omega) (by omega))
        (by
          intro hl x hx
          rw [hsame.id]
          exact hids hl x (by simp [hx])), ha', hpos]
      -- move the remaining headers in front of this inode's key and value
      have hcomm := write_comm (m.write a hdr) (a := a + 16) (b := b)
        (headers isLeaf rest (b - a + n.bytes.length - 16)) n.bytes
        (by rw [length_headers]; omega)
      have hfuse := write_write_append m a hdr
        (headers isLeaf rest (b - a + n.bytes.length - 16))
      rw [hhlen] at hfuse
      rw [← hcomm, hfuse, write_write_append, headers, hhdr, payload_cons]

/-- The cycle check fires on the first inode whose id is not the page's own. -/
theorem writeLoop_circular (p : Nat) :
    ∀ (rest : List INode) (i b : Nat) (m : Mem), i + rest.length ≤ 65536 →
      Page.ptr m p + 16 * i + 16 * rest.length ≤ b →
      Clear p (Page.ptr m p + 16 * i)
        (b - (Page.ptr m p + 16 * i) + (payload rest).length) →
      (∃ x ∈ rest, x.id ≠ Page.id m p) →
      Node.writeLoop false p rest i b m
        = .error (.exit "write: circular dependency occured\n") := by
  intro rest
  induction rest with
  | nil =>
      rintro i b m _ _ _ ⟨x, hx, _⟩
      cases hx
  | cons n rest ih =>
      rintro i b m hi hb hclear ⟨x, hx, hxid⟩
      simp only [List.length_cons] at hi hb
      simp only [payload_cons, List.length_append] at hclear
      have hclear0 : Clear p (Page.ptr m p + 16 * i) 16 :=
        hclear.mono (Nat.le_refl _) (by omega)
      rw [writeLoop_cons false (by omega) (by omega) hclear0]
      by_cases hid : n.id = Page.id m p
      · rw [if_neg (by simp [hid])]
        -- this id is the page's own, so the other one is further on
        have hxr : x ∈ rest := by
          rcases List.mem_cons.mp hx with rfl | h
          · exact absurd hid hxid
          · exact h
        have hsame := ptr_after_step (m := m) n.bytes
          (n.length_header false (b - (Page.ptr m p + 16 * i)))
          (show Page.ptr m p + 16 * i + 16 ≤ b by omega) (by omega) hclear
        refine ih _ _ _ (by omega) (by rw [hsame.ptr]; omega) ?_ ⟨x, hxr, by rwa [hsame.id]⟩
        rw [hsame.ptr]
        exact hclear.mono (by omega) (by omega)
      · rw [if_pos ⟨rfl, hid⟩]

/-! ### The whole page -/

/-- The memory after `write` has set up the header. -/
def withHeader (m : Mem) (p : Nat) (n : Node) : Mem :=
  Page.setCount
    (Page.unsetOverflow
      (Page.setFlags m p (if n.isLeaf_ then LeafPageFlag else BranchPageFlag)) p)
    p (toUInt32 n.inodes.length)

theorem ptr_withHeader (m : Mem) (p : Nat) (n : Node) :
    Page.ptr (withHeader m p n) p = Page.ptr m p := by
  simp [withHeader]

theorem id_withHeader (m : Mem) (p : Nat) (n : Node) :
    Page.id (withHeader m p n) p = Page.id m p := by
  simp [withHeader]

theorem flags_withHeader (m : Mem) (p : Nat) (n : Node) :
    Page.flags (withHeader m p n) p
      = Page.flags m p ||| (if n.isLeaf_ then LeafPageFlag else BranchPageFlag) := by
  simp [withHeader]

theorem count_withHeader (m : Mem) (p : Nat) (n : Node) :
    Page.count (withHeader m p n) p = toUInt32 n.inodes.length := by
  simp [withHeader]

/-- The data area of the page, `n` bytes long, is clear of the object. -/
def Page.HasRoom (m : Mem) (p n : Nat) : Prop := Clear p (Page.ptr m p) n

/-- Zeroed memory with the empty page 7 at 4096, its data area behind the
object. -/
def sampleMem : Mem := Page.construct (fun _ => 0) 4096 7 0 4128

/-- `write` up to the loop. -/
theorem Node.write_unfold {n : Node} {m : Mem} {p : Nat} (hlen : n.inodes.length ≤ 0xffff) :
    n.write m p = Node.writeLoop n.isLeaf_ p n.inodes 0
      (Page.ptr m p + 16 * n.inodes.length) (withHeader m p n) := by
  have hgt : ¬ n.inodes.length > 0xffff := by omega
  have hcount : (toUInt32 (n.inodes.length : Int)).toNat = n.inodes.length :=
    toNat_toUInt32 (by omega)
  have hfold : Page.setCount (Page.unsetOverflow (Page.setFlags m p
      (if n.isLeaf_ then LeafPageFlag else BranchPageFlag)) p) p
      (toUInt32 n.inodes.length) = withHeader m p n := rfl
  have hsize : n.pageElementSize.toNat = 16 := by
    rw [pageElementSize]
    cases n.isLeaf_ <;> rfl
  simp only [write, if_neg hgt, hfold, count_withHeader]
  by_cases h0 : toUInt32 (n.inodes.length : Int) = 0
  · have hnil : n.inodes = [] := by
      rw [h0] at hcount
      exact List.length_eq_zero_iff.mp hcount.symm
    rw [if_pos h0, hnil]
    rfl
  · rw [if_neg h0, ptr_withHeader, hsize, Nat.mul_comm]

/-- Where the loop starts, and that it stays clear of the object. -/
theorem Node.loop_start {n : Node} {m : Mem} {p : Nat}
    (hroom : Page.HasRoom m p (image n.isLeaf_ n.inodes).length) :
    Page.ptr (withHeader m p n) p + 16 * 0 = Page.ptr m p ∧
      Clear p (Page.ptr m p)
        (Page.ptr m p + 16 * n.inodes.length - Page.ptr m p + (payload n.inodes).length) := by
  rw [Page.HasRoom, length_image] at hroom
  refine ⟨by rw [ptr_withHeader, Nat.mul_zero, Nat.add_zero], ?_⟩
  exact hroom.mono (Nat.le_refl _) (by omega)

/-- **`write` is the header update followed by one block.**  For a branch
node this needs every child id to be the page's own. -/
theorem Node.write_eq {n : Node} {m : Mem} {p : Nat} (hlen : n.inodes.length ≤ 0xffff)
    (hroom : Page.HasRoom m p (image n.isLeaf_ n.inodes).length)
    (hids : n.isLeaf_ = false → ∀ x ∈ n.inodes, x.id = Page.id m p) :
    n.write m p
      = .ok ((withHeader m p n).write (Page.ptr m p) (image n.isLeaf_ n.inodes)) := by
  obtain ⟨hstart, hclear⟩ := loop_start hroom
  have hids' : n.isLeaf_ = false → ∀ x ∈ n.inodes, x.id = Page.id (withHeader m p n) p := by
    rwa [id_withHeader]
  have hfuse := write_write_append (withHeader m p n) (Page.ptr m p)
    (headers n.isLeaf_ n.inodes (16 * n.inodes.length)) (payload n.inodes)
  rw [length_headers] at hfuse
  rw [Node.write_unfold hlen, writeLoop_eq n.isLeaf_ p n.inodes 0 _ _ (by omega)
    (by rw [hstart]) (by rwa [hstart]) hids', hstart, Nat.add_sub_cancel_left, hfuse, image]

/-- A branch node with a child id other than the page's own is rejected. -/
theorem Node.write_circular {n : Node} {m : Mem} {p : Nat} (hleaf : n.isLeaf_ = false)
    (hlen : n.inodes.length ≤ 0xffff)
    (hroom : Page.HasRoom m p (image n.isLeaf_ n.inodes).length)
    (hids : ∃ x ∈ n.inodes, x.id ≠ Page.id m p) :
    n.write m p = .error (.exit "write: circular dependency occured\n") := by
  obtain ⟨hstart, hclear⟩ := loop_start hroom
  rw [Node.write_unfold hlen, hleaf]
  exact writeLoop_circular p n.inodes 0 _ _ (by omega) (by rw [hstart]) (by rwa [hstart])
    (by rwa [id_withHeader])

end BoltCpp
