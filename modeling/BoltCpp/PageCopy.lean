/-
BoltCpp/PageCopy.lean

Copying the bytes of a page to another address.

`ptr_` is part of the image and holds an absolute address, so a copy still
looks for its elements where the original had them.  Once the memory outside
the copy is reused, what it finds there is arbitrary: with zeros in that
place, the first element has no key and `read` gives up.  Only an image
without elements can be moved (`Node.image_selfContained_iff`).
-/
import BoltCpp.LeafPage

namespace BoltCpp

open ByteMem ByteMem.Mem

/-- `m'` has at `q` a copy of the `size` bytes that `m` has at `p`. -/
def Copied (m : Mem) (p size : Nat) (m' : Mem) (q : Nat) : Prop :=
  ∀ j < size, m' (q + j) = m (p + j)

/-- Wherever the `size` bytes at `p` are copied to, and whatever surrounds
the copy, it is read as a page that holds `xs`. -/
def Page.SelfContained (m : Mem) (p size : Nat) (xs : List INode) : Prop :=
  ∀ q m', q ≠ p → q + size ≤ 2 ^ 64 → Copied m p size m' q →
    ∀ n₀ : Node, ∃ n₁, n₀.read m' q = .ok n₁ ∧
      n₁.inodes.map INode.entry = xs.map INode.entry

/-! ### A copy in zeroed memory -/

/-- Memory that holds nothing but a copy of the `size` bytes at `p`. -/
def copyAt (m : Mem) (p size q : Nat) : Mem := fun x =>
  if q ≤ x ∧ x < q + size then m (p + (x - q)) else 0

theorem copied_copyAt (m : Mem) (p size q : Nat) : Copied m p size (copyAt m p size q) q := by
  intro j hj
  have hin : q ≤ q + j ∧ q + j < q + size := by omega
  rw [copyAt, if_pos hin, Nat.add_sub_cancel_left]

/-- The address in a copy does not depend on where the copy is. -/
theorem ptr_copyAt (m : Mem) (p size q : Nat) :
    Page.ptr (copyAt m p size q) q = Page.ptr (copyAt m p size 0) 0 := by
  refine load_congr fun i _ => ?_
  have h1 : q + 24 + i - q = 24 + i := by omega
  have h2 : 0 + 24 + i - 0 = 24 + i := by omega
  simp only [copyAt, h1, h2]
  congr 1
  simp only [eq_iff_iff]
  omega

theorem copyAt_apply_of_outside (m : Mem) {p size q x : Nat} (h : x < q ∨ q + size ≤ x) :
    copyAt m p size q x = 0 := by
  rw [copyAt, if_neg (by omega)]

/-- An element in the zeroed part has no key. -/
theorem ksize_copyAt (m : Mem) {p size q e : Nat} (h : e + 16 ≤ q ∨ q + size ≤ e) :
    LeafPageElement.ksize (copyAt m p size q) e = 0 := by
  have hzero : (copyAt m p size q).read (e + 8) 4 = List.replicate 4 0 := by
    refine List.ext_getElem (by simp) ?_
    intro i hi _
    rw [length_read] at hi
    rw [getElem_read, copyAt_apply_of_outside m (by omega), List.getElem_replicate]
  rw [LeafPageElement.ksize, load, hzero, ofLE_replicate_zero]
  rfl

/-- There is room for a copy away from any 16 bytes and any one address. -/
theorem exists_copy_address (p size v : Nat) (hsize : size < 2 ^ 31) (hv : v < 2 ^ 64) :
    ∃ q, q ≠ p ∧ q + size ≤ 2 ^ 64 ∧ (v + 16 ≤ q ∨ q + size ≤ v) := by
  by_cases hlow : v < 2 ^ 63
  · by_cases hp : p = v + 16
    · exact ⟨v + 32, by omega, by omega, Or.inl (by omega)⟩
    · exact ⟨v + 16, by omega, by omega, Or.inl (by omega)⟩
  · by_cases hp : p = 16
    · exact ⟨32, by omega, by omega, Or.inr (by omega)⟩
    · exact ⟨16, by omega, by omega, Or.inr (by omega)⟩

/-- **A copy in zeroed memory is never read as a page with elements.** -/
theorem Node.read_copyAt (m : Mem) {p size q : Nat}
    (h : Page.ptr (copyAt m p size 0) 0 + 16 ≤ q ∨
      q + size ≤ Page.ptr (copyAt m p size 0) 0) {n₀ n₁ : Node}
    (hread : n₀.read (copyAt m p size q) q = .ok n₁) : n₁.inodes = [] := by
  by_cases hcount : Page.count (copyAt m p size q) q = 0
  · rw [Node.read_of_count_zero n₀ hcount] at hread
    obtain rfl := Except.ok.inj hread
    rfl
  · have herr : ∀ isLeaf, readInode (copyAt m p size q) q isLeaf 0
        = .error (.exit "read: zero-length inode key\n") := by
      rintro (_ | _)
      · exact readInode_branch _ _ _
      · refine readInode_leaf_of_ksize_zero ?_
        rw [Page.leafPageElement_of_lt _ q (by omega : 0 < 65536), ptr_copyAt, Nat.mul_zero,
          Nat.add_zero]
        exact ksize_copyAt m h
    rw [Node.read_of_first_error n₀ hcount (herr _)] at hread
    cases hread

/-! ### Position independence -/

/-- No image that is meant to hold elements is self-contained. -/
theorem not_selfContained (m : Mem) {p size : Nat} {xs : List INode} (hsize : size < 2 ^ 31)
    (hxs : xs ≠ []) : ¬ Page.SelfContained m p size xs := by
  intro h
  -- copy the image to where `ptr_` does not point into the copy
  obtain ⟨q, hqp, hq, haway⟩ :=
    exists_copy_address p size (Page.ptr (copyAt m p size 0) 0) hsize (Page.ptr_lt _ _)
  obtain ⟨n₁, hread, hentries⟩ :=
    h q (copyAt m p size q) hqp hq (copied_copyAt m p size q) (Node.mk false false [] 0 none [])
  rw [Node.read_copyAt m haway hread] at hentries
  exact hxs (List.map_eq_nil_iff.mp hentries.symm)

/-- The header of an empty page survives a copy. -/
theorem selfContained_of_count_zero {m : Mem} {p size : Nat} (hsize : 24 ≤ size)
    (hcount : Page.count m p = 0) : Page.SelfContained m p size [] := by
  intro q m' _ _ hcopy n₀
  have hcount' : Page.count m' q = 0 := by
    rw [← hcount, Page.count, Page.count]
    congr 1
    refine load_congr fun i hi => ?_
    rw [Nat.add_assoc, Nat.add_assoc]
    exact hcopy _ (by omega)
  exact ⟨_, Node.read_of_count_zero n₀ hcount', rfl⟩

namespace Node

theorem size_lt (n : Node) : n.size < 2 ^ 31 := by
  rw [size]
  rcases List.eq_nil_or_concat n.inodes with h | ⟨xs, x, h⟩
  · rw [h]
    exact (by decide : (pageHeaderSize : Int) < 2 ^ 31)
  · rw [h, List.concat_eq_append, List.foldl_concat]
    exact toInt32_lt _

/-- **The image of a node can be moved exactly when it has no
elements.**  There is no condition on where the page and its data area lie. -/
theorem image_selfContained_iff {n : Node} {m m' : Mem} {p : Nat}
    (hwrite : n.write m p = .ok m') :
    Page.SelfContained m' p n.size.toNat n.inodes ↔ n.inodes = [] := by
  constructor
  · intro h
    by_contra hne
    have := n.size_lt
    exact not_selfContained m' (by omega) hne h
  · intro hnil
    have hsize : n.size = 24 := by
      rw [size, hnil]
      rfl
    have hm' : m' = withHeader m p n := by
      rw [Node.write_unfold (by simp [hnil]), hnil] at hwrite
      exact (Except.ok.inj hwrite).symm
    rw [hnil, hsize]
    refine selfContained_of_count_zero (by decide) ?_
    rw [hm', count_withHeader, hnil]
    rfl

theorem image_selfContained_sample :
    ∃ m', { sampleLeaf with inodes := [] }.write sampleMem 4096 = .ok m' ∧
      Page.SelfContained m' 4096 24 [] :=
  ⟨_, rfl, (image_selfContained_iff (n := { sampleLeaf with inodes := [] })
    (m := sampleMem) (p := 4096) rfl).mpr rfl⟩

/-- A page with two elements, copied to address 8192 in otherwise zeroed
memory: `ptr_` still says 4128. -/
theorem image_copy_unreadable :
    ∃ m', sampleLeaf.write sampleMem 4096 = .ok m' ∧
      ¬ Page.SelfContained m' 4096 sampleLeaf.size.toNat sampleLeaf.inodes ∧
      sampleLeaf.read (copyAt m' 4096 sampleLeaf.size.toNat 8192) 8192
        = .error (.exit "read: zero-length inode key\n") :=
  ⟨_, rfl, not_selfContained _ (by decide) (by decide), by decide⟩

end Node

end BoltCpp
