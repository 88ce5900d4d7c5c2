/-
BoltCpp/PageSearch.lean

Searching a page against searching a node with the same entries.

A page is searched through a vector of copied element headers.  A copy finds
its key relative to its own address: as far as the key of element `i` lies in
the header array itself, the copy reads the same bytes from the copied array,
and beyond that it reads whatever memory follows the vector (`key_copy`).
The two searches agree, whatever that memory holds, exactly when no key
reaches beyond the array (`Cursor.leafSearchAgrees_iff`); on a branch, which only
compares the first separator to go below the second, the first key may
(`Cursor.branchSearchAgrees_iff`).
-/
import BoltCpp.BranchPage
import BoltCpp.KeySearch
import BoltCpp.LeafPage

namespace BoltCpp

open ByteMem ByteMem.Mem

/-! ### Elements of either kind -/

/-- Where an element header keeps the fields that locate its data. -/
structure ElementFormat where
  pos : Nat
  ksize : Nat
  vsize : Option Nat

def leafFormat : ElementFormat := ⟨4, 8, some 12⟩

def branchFormat : ElementFormat := ⟨0, 4, none⟩

namespace ElementFormat

def posAt (f : ElementFormat) (m : Mem) (e : Nat) : Nat := m.load (e + f.pos) 4

def ksizeAt (f : ElementFormat) (m : Mem) (e : Nat) : Nat := m.load (e + f.ksize) 4

def vsizeAt (f : ElementFormat) (m : Mem) (e : Nat) : Nat :=
  match f.vsize with
  | some off => m.load (e + off) 4
  | none => 0

def keyAt (f : ElementFormat) (m : Mem) (e : Nat) : Slice :=
  m.read (e + f.posAt m e) (f.ksizeAt m e)

/-- The fields lie in the 16 bytes of a header. -/
structure Fits (f : ElementFormat) : Prop where
  pos : f.pos + 4 ≤ 16
  ksize : f.ksize + 4 ≤ 16

theorem posAt_lt (f : ElementFormat) (m : Mem) (e : Nat) : f.posAt m e < 2 ^ 32 :=
  m.load_lt _ 4

theorem ksizeAt_lt (f : ElementFormat) (m : Mem) (e : Nat) : f.ksizeAt m e < 2 ^ 32 :=
  m.load_lt _ 4

theorem vsizeAt_lt (f : ElementFormat) (m : Mem) (e : Nat) : f.vsizeAt m e < 2 ^ 32 := by
  rw [vsizeAt]
  split
  · exact m.load_lt _ 4
  · decide

end ElementFormat

theorem leafFormat_fits : leafFormat.Fits := ⟨by decide, by decide⟩

theorem branchFormat_fits : branchFormat.Fits := ⟨by decide, by decide⟩

theorem toNat_ofNat_load (m : Mem) (a : Nat) : (UInt32.ofNat (m.load a 4)).toNat = m.load a 4 := by
  have := m.load_lt a 4
  rw [UInt32.toNat_ofNat', Nat.mod_eq_of_lt (by simpa using this)]

theorem leafKey_eq (m : Mem) (e : Nat) : LeafPageElement.key m e = leafFormat.keyAt m e := by
  rw [LeafPageElement.key, LeafPageElement.pos, LeafPageElement.ksize, toNat_ofNat_load,
    toNat_ofNat_load]
  rfl

theorem branchKey_eq (m : Mem) (e : Nat) :
    BranchPageElement.key m e = branchFormat.keyAt m e := by
  rw [BranchPageElement.key, BranchPageElement.pos, BranchPageElement.ksize, toNat_ofNat_load,
    toNat_ofNat_load]
  rfl

/-! ### The bytes of a page and its surroundings -/

/-- Header `i` of the page. -/
abbrev Page.header (m : Mem) (p i : Nat) : Nat := Page.ptr m p + 16 * i

/-- `x` is the address of a byte of the page: of the object, of an element
header, or of the key or value of an element. -/
def Page.Owns (f : ElementFormat) (m : Mem) (p x : Nat) : Prop :=
  (p ≤ x ∧ x < p + 32) ∨ ∃ i < (Page.count m p).toNat,
    (Page.header m p i ≤ x ∧ x < Page.header m p i + 16) ∨
      (Page.header m p i + f.posAt m (Page.header m p i) ≤ x ∧
        x < Page.header m p i + f.posAt m (Page.header m p i) + f.ksizeAt m (Page.header m p i)
          + f.vsizeAt m (Page.header m p i))

/-- The page at `p` of `m`, in some memory and with a vector for its elements
at `vec`, away from the page. -/
structure Around (f : ElementFormat) (m : Mem) (p : Nat) (h : Heap) (vec : Nat) : Prop where
  page : ∀ x, Page.Owns f m p x → h.mem x = m x
  apart : ∀ x, Page.Owns f m p x → x < vec ∨ vec + 16 * (Page.count m p).toNat ≤ x
  fits : vec + 16 * (Page.count m p).toNat ≤ 2 ^ 64

/-- The key of element `i`, with the bytes beyond the header array taken from
`g`, which is indexed like the array. -/
def blend (f : ElementFormat) (m : Mem) (p i : Nat) (g : Nat → UInt8) : Slice :=
  (List.range (f.ksizeAt m (Page.header m p i))).map fun t =>
    let off := 16 * i + f.posAt m (Page.header m p i) + t
    if off < 16 * (Page.count m p).toNat then m (Page.ptr m p + off) else g off

/-- The key of element `i` lies in the header array. -/
def KeyInside (f : ElementFormat) (m : Mem) (p i : Nat) : Prop :=
  f.ksizeAt m (Page.header m p i) = 0 ∨
    16 * i + f.posAt m (Page.header m p i) + f.ksizeAt m (Page.header m p i)
      ≤ 16 * (Page.count m p).toNat

instance decidableKeyInside (f : ElementFormat) (m : Mem) (p i : Nat) :
    Decidable (KeyInside f m p i) :=
  inferInstanceAs (Decidable (_ ∨ _))

section

variable {f : ElementFormat} {m : Mem} {p i : Nat}

theorem length_blend (g : Nat → UInt8) :
    (blend f m p i g).length = f.ksizeAt m (Page.header m p i) := by
  simp [blend]

theorem keyAt_eq_blend :
    f.keyAt m (Page.header m p i) = blend f m p i fun off => m (Page.ptr m p + off) := by
  refine List.map_congr_left fun t _ => ?_
  have haddr : Page.header m p i + f.posAt m (Page.header m p i) + t
      = Page.ptr m p + (16 * i + f.posAt m (Page.header m p i) + t) := by
    rw [Page.header]
    omega
  simp only [ite_self, haddr]

/-- A key inside the array does not depend on what is behind it. -/
theorem blend_of_inside (hin : KeyInside f m p i) (g g' : Nat → UInt8) :
    blend f m p i g = blend f m p i g' := by
  refine List.map_congr_left fun t ht => ?_
  have ht := List.mem_range.mp ht
  have hoff : 16 * i + f.posAt m (Page.header m p i) + t < 16 * (Page.count m p).toNat := by
    rcases hin with h0 | hle <;> omega
  simp only [if_pos hoff]

/-- A key that reaches beyond the array ends with a byte from there. -/
theorem getElem?_blend_of_outside (hout : ¬ KeyInside f m p i) (g : Nat → UInt8) :
    (blend f m p i g)[f.ksizeAt m (Page.header m p i) - 1]?
      = some (g (16 * i + f.posAt m (Page.header m p i)
          + (f.ksizeAt m (Page.header m p i) - 1))) := by
  rw [KeyInside, not_or] at hout
  have hlt : f.ksizeAt m (Page.header m p i) - 1 < f.ksizeAt m (Page.header m p i) := by omega
  have hoff : ¬ 16 * i + f.posAt m (Page.header m p i) + (f.ksizeAt m (Page.header m p i) - 1)
      < 16 * (Page.count m p).toNat := by omega
  rw [blend, List.getElem?_map, List.getElem?_range hlt]
  simp only [Option.map_some, if_neg hoff]

theorem blend_le_blend {g g' : Nat → UInt8} (h : ∀ off, g off ≤ g' off) :
    blend f m p i g ≤ blend f m p i g' := by
  refine le_of_forall₂ ?_
  rw [blend, blend, List.forall₂_map_left_iff, List.forall₂_map_right_iff, List.forall₂_same]
  intro t _
  simp only
  split
  · exact le_refl _
  · exact h _

end

/-! ### The copied elements -/

/-- The memory a page is searched in: the header array of the page at `p`
has been copied to `vec`. -/
def copied (h : Heap) (p vec : Nat) : Mem :=
  h.mem.write vec (h.mem.read (Page.ptr h.mem p) (16 * (Page.count h.mem p).toNat))

section

variable {f : ElementFormat} {m : Mem} {p i vec : Nat} {h : Heap}

theorem Around.sameHeader (ha : Around f m p h vec) : Page.SameHeader m h.mem p p :=
  Page.sameHeader_of_bytes fun _ hj => ha.page _ (Or.inl ⟨by omega, by omega⟩)

/-- The copy agrees with the array, and is followed by what was there. -/
theorem copied_apply (ha : Around f m p h vec) (off : Nat) :
    copied h p vec (vec + off)
      = if off < 16 * (Page.count m p).toNat then m (Page.ptr m p + off)
        else h.mem (vec + off) := by
  rw [copied, ha.sameHeader.ptr, ha.sameHeader.count]
  -- inside the array the copy was written, behind it nothing was
  by_cases hoff : off < 16 * (Page.count m p).toNat
  · rw [if_pos hoff, write_apply _ _ _ _ (by rwa [length_read]), getElem_read]
    refine ha.page _ (Or.inr ⟨off / 16, by omega, Or.inl ⟨?_, ?_⟩⟩)
    · rw [Page.header]
      omega
    · rw [Page.header]
      omega
  · rw [if_neg hoff, write_of_ge _ _ (by rw [length_read]; omega)]

theorem load_copied (ha : Around f m p h vec) (hi : i < (Page.count m p).toNat) {off k : Nat}
    (hk : off + k ≤ 16) :
    (copied h p vec).load (vec + 16 * i + off) k = m.load (Page.header m p i + off) k := by
  refine load_congr fun j hj => ?_
  have hoff : 16 * i + off + j < 16 * (Page.count m p).toNat := by omega
  have hcopy := copied_apply ha (16 * i + off + j)
  rw [if_pos hoff] at hcopy
  rw [Page.header, Nat.add_assoc, Nat.add_assoc, Nat.add_assoc, Nat.add_assoc,
    ← Nat.add_assoc (16 * i), hcopy]

/-- **Where a copy finds its key.** -/
theorem key_copy (ha : Around f m p h vec) (hf : f.Fits) (hi : i < (Page.count m p).toNat) :
    f.keyAt (copied h p vec) (vec + 16 * i) = blend f m p i fun off => h.mem (vec + off) := by
  have hpos : f.posAt (copied h p vec) (vec + 16 * i) = f.posAt m (Page.header m p i) :=
    load_copied ha hi hf.pos
  have hksize : f.ksizeAt (copied h p vec) (vec + 16 * i) = f.ksizeAt m (Page.header m p i) :=
    load_copied ha hi hf.ksize
  rw [ElementFormat.keyAt, hpos, hksize]
  refine List.map_congr_left fun t _ => ?_
  have haddr : vec + 16 * i + f.posAt m (Page.header m p i) + t
      = vec + (16 * i + f.posAt m (Page.header m p i) + t) := by omega
  rw [haddr, copied_apply ha]

/-- The keys the copies have. -/
def copyKeys (f : ElementFormat) (h : Heap) (p vec : Nat) : List Slice :=
  (Page.elementAddrs vec (Page.count h.mem p).toNat).map (f.keyAt (copied h p vec))

theorem length_copyKeys (ha : Around f m p h vec) :
    (copyKeys f h p vec).length = (Page.count m p).toNat := by
  rw [copyKeys, List.length_map, Page.length_elementAddrs, ha.sameHeader.count]

theorem getElem?_copyKeys (ha : Around f m p h vec) (hf : f.Fits)
    (hi : i < (Page.count m p).toNat) :
    (copyKeys f h p vec)[i]? = some (blend f m p i fun off => h.mem (vec + off)) := by
  rw [copyKeys, List.getElem?_map, Page.elementAddrs, List.getElem?_map, ha.sameHeader.count,
    List.getElem?_range hi]
  simp only [Option.map_some, key_copy ha hf hi]

end

/-! ### Surroundings of one's choice -/

/-- The memory `m`, but for `2 ^ 40` bytes from `vec` on. -/
def surround (m : Mem) (vec : Nat) (c : UInt8) : Mem := fun x =>
  if vec ≤ x ∧ x < vec + 2 ^ 40 then c else m x

/-- Three places far enough apart: one of them is away from the page. -/
theorem exists_vec (p a : Nat) : ∃ vec, vec + 2 ^ 40 ≤ 2 ^ 64 ∧
    (p + 32 ≤ vec ∨ vec + 2 ^ 40 ≤ p) ∧ (a + 2 ^ 40 ≤ vec ∨ vec + 2 ^ 40 ≤ a) := by
  by_cases h1 : (p + 32 ≤ 2 ^ 42 ∨ 2 ^ 42 + 2 ^ 40 ≤ p) ∧
      (a + 2 ^ 40 ≤ 2 ^ 42 ∨ 2 ^ 42 + 2 ^ 40 ≤ a)
  · exact ⟨2 ^ 42, by omega, h1⟩
  by_cases h2 : (p + 32 ≤ 2 ^ 43 ∨ 2 ^ 43 + 2 ^ 40 ≤ p) ∧
      (a + 2 ^ 40 ≤ 2 ^ 43 ∨ 2 ^ 43 + 2 ^ 40 ≤ a)
  · exact ⟨2 ^ 43, by omega, h2⟩
  · exact ⟨2 ^ 44, by omega, by omega, by omega⟩

section

variable {f : ElementFormat} {m : Mem} {p : Nat}

theorem owns_bounds {x : Nat} (hx : Page.Owns f m p x) :
    (p ≤ x ∧ x < p + 32) ∨ (Page.ptr m p ≤ x ∧ x < Page.ptr m p + 2 ^ 40) := by
  rcases hx with hobj | ⟨i, hi, hdata⟩
  · exact Or.inl hobj
  · have hcount := (Page.count m p).toNat_lt
    have hpos := f.posAt_lt m (Page.header m p i)
    have hksize := f.ksizeAt_lt m (Page.header m p i)
    have hvsize := f.vsizeAt_lt m (Page.header m p i)
    refine Or.inr ?_
    rw [Page.header] at *
    omega

/-- **Every page can be surrounded** by any byte. -/
theorem exists_around (f : ElementFormat) (m : Mem) (p : Nat) (node : NodePtr → Node) :
    ∃ vec, ∀ c, Around f m p ⟨surround m vec c, node⟩ vec ∧
      ∀ off < 2 ^ 40, surround m vec c (vec + off) = c := by
  obtain ⟨vec, hfits, hobj, hdata⟩ := exists_vec p (Page.ptr m p)
  have hcount := (Page.count m p).toNat_lt
  refine ⟨vec, fun c => ⟨⟨fun x hx => ?_, fun x hx => ?_, by omega⟩, fun off hoff => ?_⟩⟩
  · have := owns_bounds hx
    exact if_neg (by omega)
  · have := owns_bounds hx
    omega
  · exact if_pos ⟨by omega, by omega⟩

/-- In such surroundings the copies have these keys. -/
theorem getElem?_copyKeys_surround {vec i : Nat} {c : UInt8} {node : NodePtr → Node}
    (ha : Around f m p ⟨surround m vec c, node⟩ vec)
    (hc : ∀ off < 2 ^ 40, surround m vec c (vec + off) = c) (hf : f.Fits)
    (hi : i < (Page.count m p).toNat) :
    (copyKeys f ⟨surround m vec c, node⟩ p vec)[i]? = some (blend f m p i fun _ => c) := by
  rw [getElem?_copyKeys ha hf hi]
  refine congrArg some (List.map_congr_left fun t ht => ?_)
  have ht := List.mem_range.mp ht
  have hcount := (Page.count m p).toNat_lt
  have hpos := f.posAt_lt m (Page.header m p i)
  have hksize := f.ksizeAt_lt m (Page.header m p i)
  simp only [hc _ (by omega : 16 * i + f.posAt m (Page.header m p i) + t < 2 ^ 40)]

end

/-! ### The keys of the page -/

/-- The keys of the elements where they are. -/
def pageKeys (f : ElementFormat) (m : Mem) (p : Nat) : List Slice :=
  (Page.elementAddrs (Page.ptr m p) (Page.count m p).toNat).map (f.keyAt m)

section

variable {f : ElementFormat} {m : Mem} {p i : Nat}

theorem length_pageKeys : (pageKeys f m p).length = (Page.count m p).toNat := by
  rw [pageKeys, List.length_map, Page.length_elementAddrs]

theorem getElem?_pageKeys (hi : i < (Page.count m p).toNat) :
    (pageKeys f m p)[i]? = some (f.keyAt m (Page.header m p i)) := by
  rw [pageKeys, List.getElem?_map, Page.elementAddrs, List.getElem?_map, List.getElem?_range hi]
  rfl

theorem blend_ne {c c' : UInt8} (hout : ¬ KeyInside f m p i) (hne : c ≠ c') :
    blend f m p i (fun _ => c) ≠ blend f m p i fun _ => c' := by
  intro heq
  have hlast := getElem?_blend_of_outside hout fun _ => c
  rw [heq, getElem?_blend_of_outside hout fun _ => c'] at hlast
  exact hne (Option.some.inj hlast).symm

theorem le_byte_max (b : UInt8) : b ≤ 255 := by
  have hb := b.toNat_lt
  have hmax : (255 : UInt8).toNat = 255 := rfl
  rw [UInt8.le_iff_toNat_le]
  omega

theorem keyAt_le_blend : f.keyAt m (Page.header m p i) ≤ blend f m p i fun _ => 255 := by
  rw [keyAt_eq_blend]
  exact blend_le_blend fun _ => le_byte_max _

theorem blend_le_keyAt : blend f m p i (fun _ => 0) ≤ f.keyAt m (Page.header m p i) := by
  rw [keyAt_eq_blend]
  exact blend_le_blend fun _ => UInt8.zero_le

end

/-! ### Leaves -/

section

variable {f : ElementFormat} {m : Mem} {p : Nat}

/-- Copies that lie in the array have the keys of the page. -/
theorem copyKeys_eq_pageKeys {h : Heap} {vec : Nat} (hf : f.Fits) (ha : Around f m p h vec)
    (hin : ∀ i < (Page.count m p).toNat, KeyInside f m p i) :
    copyKeys f h p vec = pageKeys f m p := by
  refine List.ext_getElem? fun i => ?_
  rcases Nat.lt_or_ge i (Page.count m p).toNat with hi | hi
  · rw [getElem?_copyKeys ha hf hi, getElem?_pageKeys hi, keyAt_eq_blend,
      blend_of_inside (hin i hi)]
  · rw [List.getElem?_eq_none (by rwa [length_copyKeys ha]),
      List.getElem?_eq_none (by rwa [length_pageKeys])]

/-- **Leaf searches** agree in all surroundings if and only if the keys lie
in the header array. -/
theorem keyIndex_copyKeys_iff (hf : f.Fits) (hsorted : (pageKeys f m p).Pairwise (· < ·))
    (node : NodePtr → Node) :
    (∀ mem vec, Around f m p ⟨mem, node⟩ vec →
        ∀ s, keyIndex (copyKeys f ⟨mem, node⟩ p vec) s = keyIndex (pageKeys f m p) s) ↔
      ∀ i < (Page.count m p).toNat, KeyInside f m p i := by
  constructor
  · intro hagree i hi
    by_contra hout
    obtain ⟨vec, hsurround⟩ := exists_around f m p node
    -- the copies have the page's keys whichever byte surrounds them
    have hkey : ∀ c : UInt8, some (blend f m p i fun _ => c) = (pageKeys f m p)[i]? := by
      intro c
      obtain ⟨ha, hc⟩ := hsurround c
      rw [← eq_of_keyIndex_eq hsorted ((length_copyKeys ha).trans length_pageKeys.symm)
        (hagree _ vec ha), getElem?_copyKeys_surround ha hc hf hi]
    exact blend_ne hout (by decide : (0 : UInt8) ≠ 1)
      (Option.some.inj ((hkey 0).trans (hkey 1).symm))
  · intro hin mem vec ha s
    rw [copyKeys_eq_pageKeys hf ha hin]

end

/-! ### Branches -/

/-- The keys from index 1 on lie in the header array, and the first key stays
below the second one. -/
structure SeparatorsInside (f : ElementFormat) (m : Mem) (p : Nat) : Prop where
  inside : ∀ i, 0 < i → i < (Page.count m p).toNat → KeyInside f m p i
  first : 1 < (Page.count m p).toNat →
    blend f m p 0 (fun _ => 255) < f.keyAt m (Page.header m p 1)

section

variable {f : ElementFormat} {m : Mem} {p i : Nat} {node : NodePtr → Node}

/-- Branch searches agree in all surroundings. -/
def ChildAgrees (f : ElementFormat) (m : Mem) (p : Nat) (node : NodePtr → Node) : Prop :=
  ∀ mem vec, Around f m p ⟨mem, node⟩ vec →
    ∀ s, childOf (copyKeys f ⟨mem, node⟩ p vec) s = childOf (pageKeys f m p) s

/-- The end of a key that agrees is as large as can be. -/
theorem ChildAgrees.key_eq_blend (hf : f.Fits) (hsorted : (pageKeys f m p).Pairwise (· < ·))
    (hagree : ChildAgrees f m p node) (hpos : 0 < i) (hi : i < (Page.count m p).toNat) :
    f.keyAt m (Page.header m p i) = blend f m p i fun _ => 255 := by
  obtain ⟨vec, hsurround⟩ := exists_around f m p node
  obtain ⟨ha, hc⟩ := hsurround 255
  exact le_antisymm keyAt_le_blend (le_of_childOf_eq hsorted (hagree _ vec ha) hpos
    (getElem?_pageKeys hi) (getElem?_copyKeys_surround ha hc hf hi))

/-- A key that ends with the byte 255 is not another one with a zero byte
appended. -/
theorem append_zero_ne_blend (hout : ¬ KeyInside f m p i) (k : Slice) :
    k ++ [0] ≠ blend f m p i fun _ => 255 := by
  intro heq
  have hlen := congrArg List.length heq
  rw [length_blend, List.length_append, List.length_singleton] at hlen
  -- the last byte would be 255 and 0
  have hlast := getElem?_blend_of_outside hout fun _ => 255
  rw [← heq, ← hlen, Nat.add_sub_cancel, List.getElem?_concat_length] at hlast
  exact absurd (Option.some.inj hlast) (by decide)

theorem ChildAgrees.inside (hf : f.Fits) (hsorted : (pageKeys f m p).Pairwise (· < ·))
    (hagree : ChildAgrees f m p node) (hpos : 0 < i) (hi : i < (Page.count m p).toNat) :
    KeyInside f m p i := by
  by_contra hout
  obtain ⟨j, rfl⟩ : ∃ j, i = j + 1 := ⟨i - 1, by omega⟩
  have hkey := hagree.key_eq_blend hf hsorted hpos hi
  have hkj := getElem?_pageKeys (f := f) (by omega : j < (Page.count m p).toNat)
  have hlt := sorted_lt hsorted (Nat.lt_succ_self j) hkj (getElem?_pageKeys hi)
  obtain ⟨vec, hsurround⟩ := exists_around f m p node
  obtain ⟨ha, hc⟩ := hsurround 0
  -- the least key above key `j` that the zero copy of key `j + 1` does not exceed
  have hlow : blend f m p (j + 1) (fun _ => 0) < f.keyAt m (Page.header m p (j + 1)) :=
    lt_of_le_of_ne blend_le_keyAt (by rw [hkey]; exact blend_ne hout (by decide))
  have hnext : f.keyAt m (Page.header m p j) ++ [0] < f.keyAt m (Page.header m p (j + 1)) :=
    lt_of_le_of_ne (append_zero_le hlt) (by rw [hkey]; exact append_zero_ne_blend hout _)
  have hs := lt_append_zero (f.keyAt m (Page.header m p j))
  -- that key is routed to child `j` by the page and to child `j + 1` by the copies
  have hgap := lt_of_childOf_eq hsorted (hagree _ vec ha) hkj (getElem?_pageKeys hi)
    (getElem?_copyKeys_surround ha hc hf (by omega)) (getElem?_copyKeys_surround ha hc hf hi)
    (lt_max_of_lt_left hs) (lt_max_of_lt_left (lt_of_le_of_lt blend_le_keyAt hs))
    (max_lt hnext hlow)
  exact absurd hgap (not_lt.mpr (le_max_right _ _))

theorem ChildAgrees.first_lt (hf : f.Fits) (hsorted : (pageKeys f m p).Pairwise (· < ·))
    (hagree : ChildAgrees f m p node) (hcount : 1 < (Page.count m p).toNat) :
    blend f m p 0 (fun _ => 255) < f.keyAt m (Page.header m p 1) := by
  obtain ⟨vec, hsurround⟩ := exists_around f m p node
  obtain ⟨ha, hc⟩ := hsurround 255
  -- the second key is there in full, the first one is filled up with 255
  have hcopy := getElem?_copyKeys_surround ha hc hf hcount
  rw [← hagree.key_eq_blend hf hsorted Nat.one_pos hcount] at hcopy
  exact first_lt_of_childOf_eq hsorted (hagree _ vec ha) (getElem?_pageKeys hcount) hcopy
    (getElem?_copyKeys_surround ha hc hf (by omega))

/-- From index 1 on the copies have the keys of the page. -/
theorem SeparatorsInside.copyKeys_eq {h : Heap} {vec : Nat} (hf : f.Fits)
    (hin : SeparatorsInside f m p) (ha : Around f m p h vec) (hpos : 0 < i)
    (hi : i < (Page.count m p).toNat) :
    (copyKeys f h p vec)[i]? = (pageKeys f m p)[i]? := by
  rw [getElem?_copyKeys ha hf hi, getElem?_pageKeys hi, keyAt_eq_blend,
    blend_of_inside (hin.inside i hpos hi)]

/-- The copies are in order, too. -/
theorem SeparatorsInside.sorted_copyKeys {h : Heap} {vec : Nat} (hf : f.Fits)
    (hsorted : (pageKeys f m p).Pairwise (· < ·)) (hin : SeparatorsInside f m p)
    (ha : Around f m p h vec) : (copyKeys f h p vec).Pairwise (· < ·) := by
  rw [List.pairwise_iff_getElem]
  intro i j hi hj hij
  have hi' := List.getElem?_eq_getElem hi
  have hj' := List.getElem?_eq_getElem hj
  rw [length_copyKeys ha] at hi hj
  rw [hin.copyKeys_eq hf ha (by omega) hj] at hj'
  rcases Nat.eq_zero_or_pos i with rfl | hpos
  · -- the first copy may differ, but stays below the second one
    rw [getElem?_copyKeys ha hf hi] at hi'
    rw [← Option.some.inj hi']
    have hfirst : blend f m p 0 (fun off => h.mem (vec + off))
        < f.keyAt m (Page.header m p 1) :=
      lt_of_le_of_lt (blend_le_blend fun _ => le_byte_max _) (hin.first (by omega))
    have hone := getElem?_pageKeys (f := f) (by omega : 1 < (Page.count m p).toNat)
    rcases Nat.eq_or_lt_of_le (by omega : 1 ≤ j) with rfl | h1j
    · rwa [Option.some.inj (hj'.symm.trans hone)]
    · exact lt_trans hfirst (sorted_lt hsorted h1j hone hj')
  · rw [hin.copyKeys_eq hf ha hpos hi] at hi'
    exact sorted_lt hsorted hij hi' hj'

/-- **Branch searches** agree in all surroundings if and only if the
separators are inside. -/
theorem childAgrees_iff (hf : f.Fits) (hsorted : (pageKeys f m p).Pairwise (· < ·)) :
    ChildAgrees f m p node ↔ SeparatorsInside f m p := by
  constructor
  · intro hagree
    exact ⟨fun i hpos hi => hagree.inside hf hsorted hpos hi, hagree.first_lt hf hsorted⟩
  · intro hin mem vec ha s
    refine childOf_congr hsorted (hin.sorted_copyKeys hf hsorted ha)
      ((length_copyKeys ha).trans length_pageKeys.symm) (fun i hpos hi => ?_) s
    rw [length_pageKeys] at hi
    exact hin.copyKeys_eq hf ha hpos hi

end

/-! ### The two forms of a search -/

/-- The leaf page at `p` and the node have the same keys. -/
def Page.SameLeaf (m : Mem) (p : Nat) (nd : Node) : Prop :=
  nd.inodes.map INode.key
    = (Page.elementAddrs (Page.ptr m p) (Page.count m p).toNat).map (LeafPageElement.key m)

/-- The branch page at `p` and the node have the same separators and
children. -/
structure Page.SameBranch (m : Mem) (p : Nat) (nd : Node) : Prop where
  keys : nd.inodes.map INode.key
    = (Page.elementAddrs (Page.ptr m p) (Page.count m p).toNat).map (BranchPageElement.key m)
  ids : nd.inodes.map INode.id
    = (Page.elementAddrs (Page.ptr m p) (Page.count m p).toNat).map (BranchPageElement.id m)

namespace Cursor

/-- In all surroundings, `nsearch` sets the same index for page and node. -/
def LeafSearchAgrees (m : Mem) (p : Nat) (nd : Node) : Prop :=
  ∀ (h : Heap) (vec : Nat) (q : NodePtr) (key : Slice),
    Around leafFormat m p h vec → h.node q = nd →
      nsearch h ⟨some p, none, 0⟩ vec key = nsearch h ⟨none, some q, 0⟩ vec key

/-- In all surroundings, `searchPage` and `searchNode` choose the same index
and the same child. -/
def BranchSearchAgrees (m : Mem) (p : Nat) (nd : Node) : Prop :=
  ∀ (h : Heap) (vec : Nat) (key : Slice), Around branchFormat m p h vec →
    searchPage h.mem p vec key = searchNode nd key

section

variable {m : Mem} {p vec : Nat} {h : Heap} {nd : Node}

theorem nsearch_page (key : Slice) :
    nsearch h ⟨some p, none, 0⟩ vec key = .ok (keyIndex (copyKeys leafFormat h p vec) key) := by
  rw [nsearch, copyKeys, ← funext (leafKey_eq (copied h p vec)), ← lowerBound_eq_keyIndex]
  rfl

theorem nsearch_node {q : NodePtr} (hsame : Page.SameLeaf m p (h.node q)) (key : Slice) :
    nsearch h ⟨none, some q, 0⟩ vec key = .ok (keyIndex (pageKeys leafFormat m p) key) := by
  rw [pageKeys, ← funext (leafKey_eq m), ← hsame, ← lowerBound_eq_keyIndex]
  rfl

/-- The copies have the child ids of the page. -/
theorem map_id_copied (ha : Around branchFormat m p h vec) :
    (Page.elementAddrs vec (Page.count h.mem p).toNat).map (BranchPageElement.id (copied h p vec))
      = (Page.elementAddrs (Page.ptr m p) (Page.count m p).toNat).map
          (BranchPageElement.id m) := by
  rw [ha.sameHeader.count, Page.elementAddrs, Page.elementAddrs, List.map_map, List.map_map]
  refine List.map_congr_left fun i hi => ?_
  rw [Function.comp_apply, Function.comp_apply, BranchPageElement.id, BranchPageElement.id,
    load_copied ha (List.mem_range.mp hi) (by decide)]

theorem searchPage_of_same (hsame : Page.SameBranch m p nd) (ha : Around branchFormat m p h vec)
    (key : Slice) :
    searchPage h.mem p vec key
      = (do
          let x ← vecAt nd.inodes (childOf (copyKeys branchFormat h p vec) key : Nat)
          pure (childOf (copyKeys branchFormat h p vec) key, x.id)) := by
  rw [← vecAt_map_bind INode.id nd.inodes _
    fun id => pure (childOf (copyKeys branchFormat h p vec) key, id), hsame.ids,
    ← map_id_copied ha, vecAt_map_bind, copyKeys, ← funext (branchKey_eq (copied h p vec))]
  simp only [searchPage, Page.branchPageElements, lowerBound_eq_keyIndex (BranchPageElement.key _),
    childIndex_eq_childOf (BranchPageElement.key _)]
  rfl

theorem searchNode_of_same (hsame : Page.SameBranch m p nd) (key : Slice) :
    searchNode nd key
      = (do
          let x ← vecAt nd.inodes (childOf (pageKeys branchFormat m p) key : Nat)
          pure (childOf (pageKeys branchFormat m p) key, x.id)) := by
  rw [searchNode_eq_childOf, hsame.keys, pageKeys, funext (branchKey_eq m)]

/-- The search of a branch page shows which child was chosen. -/
theorem childOf_eq_of_search_eq (hsame : Page.SameBranch m p nd)
    (ha : Around branchFormat m p h vec) {key : Slice}
    (heq : searchPage h.mem p vec key = searchNode nd key) :
    childOf (copyKeys branchFormat h p vec) key = childOf (pageKeys branchFormat m p) key := by
  have hlen : (copyKeys branchFormat h p vec).length = (pageKeys branchFormat m p).length :=
    (length_copyKeys ha).trans length_pageKeys.symm
  by_cases hnil : pageKeys branchFormat m p = []
  · -- without elements both searches index an empty vector
    rw [hnil, List.length_nil, List.length_eq_zero_iff] at hlen
    rw [hnil, hlen]
  · have hinodes : nd.inodes.length = (pageKeys branchFormat m p).length := by
      rw [pageKeys, ← funext (branchKey_eq m), ← hsame.keys, List.length_map]
    have hnil' : copyKeys branchFormat h p vec ≠ [] := by
      rwa [ne_eq, ← List.length_eq_zero_iff, hlen, List.length_eq_zero_iff]
    have hcopy := childOf_lt hnil' key
    have hnode := childOf_lt hnil key
    rw [hlen, ← hinodes] at hcopy
    rw [← hinodes] at hnode
    rw [searchPage_of_same hsame ha, searchNode_of_same hsame,
      vecAt_ofNat (List.getElem?_eq_getElem hcopy), ok_bind,
      vecAt_ofNat (List.getElem?_eq_getElem hnode), ok_bind] at heq
    simp only [pure, Except.pure, Except.ok.injEq, Prod.mk.injEq] at heq
    exact heq.1

end

theorem leafSearchAgrees_iff {m : Mem} {p : Nat} {nd : Node} (hsame : Page.SameLeaf m p nd)
    (hsorted : (nd.inodes.map INode.key).Pairwise (· < ·)) :
    LeafSearchAgrees m p nd ↔
      ∀ i < (Page.count m p).toNat, KeyInside leafFormat m p i := by
  have hsorted' : (pageKeys leafFormat m p).Pairwise (· < ·) := by
    rwa [pageKeys, ← funext (leafKey_eq m), ← hsame]
  constructor
  · intro hagree
    refine (keyIndex_copyKeys_iff leafFormat_fits hsorted' fun _ => nd).mp ?_
    intro mem vec ha s
    have heq := hagree _ vec 0 s ha rfl
    rw [nsearch_page, nsearch_node hsame] at heq
    exact Except.ok.inj heq
  · rintro hin h vec q key ha rfl
    rw [nsearch_page, nsearch_node hsame, copyKeys_eq_pageKeys leafFormat_fits ha hin]

theorem branchSearchAgrees_iff {m : Mem} {p : Nat} {nd : Node}
    (hsame : Page.SameBranch m p nd) (hsorted : (nd.inodes.map INode.key).Pairwise (· < ·)) :
    BranchSearchAgrees m p nd ↔ SeparatorsInside branchFormat m p := by
  have hsorted' : (pageKeys branchFormat m p).Pairwise (· < ·) := by
    rwa [pageKeys, ← funext (branchKey_eq m), ← hsame.keys]
  constructor
  · intro hagree
    have hchild : ChildAgrees branchFormat m p fun _ => nd :=
      fun mem vec ha s => childOf_eq_of_search_eq hsame ha (hagree _ vec s ha)
    exact (childAgrees_iff branchFormat_fits hsorted').mp hchild
  · intro hin h vec key ha
    have hagree : ChildAgrees branchFormat m p h.node :=
      (childAgrees_iff branchFormat_fits hsorted').mpr hin
    rw [searchPage_of_same hsame ha, searchNode_of_same hsame, hagree h.mem vec ha key]

/-- **When searching a page agrees with searching the node** that holds the
same entries, in order. -/
theorem pageSearch_agrees_iff (m : Mem) (p : Nat) (nd : Node)
    (hsorted : (nd.inodes.map INode.key).Pairwise (· < ·)) :
    (Page.SameLeaf m p nd →
        (LeafSearchAgrees m p nd ↔
          ∀ i < (Page.count m p).toNat, KeyInside leafFormat m p i)) ∧
      (Page.SameBranch m p nd →
        (BranchSearchAgrees m p nd ↔ SeparatorsInside branchFormat m p)) :=
  ⟨fun hsame => leafSearchAgrees_iff hsame hsorted,
    fun hsame => branchSearchAgrees_iff hsame hsorted⟩

/-- A page with the vector 4 KiB behind it. -/
theorem around_sample {f : ElementFormat} {m : Mem} {nd : Node} (hcount : Page.count m 4096 = 2)
    (hptr : Page.ptr m 4096 = 4128)
    (hdata : ∀ i < 2, f.posAt m (4128 + 16 * i) + f.ksizeAt m (4128 + 16 * i)
      + f.vsizeAt m (4128 + 16 * i) < 1024) :
    Around f m 4096 ⟨m, fun _ => nd⟩ 8192 := by
  refine ⟨fun _ _ => rfl, fun x hx => Or.inl ?_, by rw [hcount]; decide⟩
  rcases hx with hobj | ⟨i, hi, hx⟩
  · omega
  · rw [hcount] at hi
    rw [Page.header, hptr] at hx
    have hi : i < 2 := hi
    have := hdata i hi
    omega

theorem pageSearch_agrees_sample :
    ¬ LeafSearchAgrees sampleLeafMem 4096 sampleLeaf ∧
      BranchSearchAgrees (Node.sampleBranchMem [3]) 4096 (Node.sampleBranch [3]) := by
  have hleaf : LeafSearchAgrees sampleLeafMem 4096 sampleLeaf ↔
      ∀ i < (Page.count sampleLeafMem 4096).toNat, KeyInside leafFormat sampleLeafMem 4096 i :=
    (pageSearch_agrees_iff _ _ _ (by decide)).1 rfl
  have hbranch : BranchSearchAgrees (Node.sampleBranchMem [3]) 4096 (Node.sampleBranch [3]) ↔
      SeparatorsInside branchFormat (Node.sampleBranchMem [3]) 4096 :=
    (pageSearch_agrees_iff _ _ _ (by decide)).2 ⟨by decide, by decide⟩
  refine ⟨fun hagree => absurd (hleaf.mp hagree 0 (by decide)) (by decide), hbranch.mpr ⟨?_, ?_⟩⟩
  · intro i hpos hi
    have hi : i < 1 := hi
    omega
  · exact fun hcount => absurd hcount (by decide)

/-- The key 98 is found in the node but not in the page, and the key 0, 5 is
searched for in the first child of the node but in the second of the page. -/
theorem pageSearch_disagrees :
    (nsearch ⟨sampleLeafMem, fun _ => sampleLeaf⟩ ⟨none, some 1, 0⟩ 8192 [98] = .ok 0 ∧
      nsearch ⟨sampleLeafMem, fun _ => sampleLeaf⟩ ⟨some 4096, none, 0⟩ 8192 [98] = .ok 2 ∧
      ¬ LeafSearchAgrees sampleLeafMem 4096 sampleLeaf) ∧
    searchNode (Node.sampleBranch [3, 7]) [0, 5] = .ok (0, 3) ∧
      searchPage (Node.sampleBranchMem [3, 7]) 4096 8192 [0, 5] = .ok (1, 7) ∧
      ¬ BranchSearchAgrees (Node.sampleBranchMem [3, 7]) 4096 (Node.sampleBranch [3, 7]) := by
  have hleafNode : nsearch ⟨sampleLeafMem, fun _ => sampleLeaf⟩ ⟨none, some 1, 0⟩ 8192 [98]
      = .ok 0 := by decide
  have hleafPage : nsearch ⟨sampleLeafMem, fun _ => sampleLeaf⟩ ⟨some 4096, none, 0⟩ 8192 [98]
      = .ok 2 := by decide
  have hnode : searchNode (Node.sampleBranch [3, 7]) [0, 5] = .ok (0, 3) := by decide
  have hpage : searchPage (Node.sampleBranchMem [3, 7]) 4096 8192 [0, 5] = .ok (1, 7) := by
    decide
  refine ⟨⟨hleafNode, hleafPage, fun hagree => ?_⟩, hnode, hpage, fun hagree => ?_⟩
  · have heq := hagree ⟨sampleLeafMem, fun _ => sampleLeaf⟩ 8192 1 [98]
      (around_sample (by decide) (by decide) (by decide)) rfl
    rw [hleafNode, hleafPage] at heq
    exact absurd heq (by decide)
  · have heq := hagree ⟨Node.sampleBranchMem [3, 7], fun _ => sampleLeaf⟩ 8192 [0, 5]
      (around_sample (by decide) (by decide) (by decide))
    rw [hnode] at heq
    exact absurd (hpage.symm.trans heq) (by decide)

end Cursor

end BoltCpp
