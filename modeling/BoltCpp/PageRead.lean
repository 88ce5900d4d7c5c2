/-
BoltCpp/PageRead.lean

What `Node::read` makes of a page.

Three outcomes are used elsewhere: a page without elements is read as an
empty node, a page whose first element cannot be read stops the program, and
a leaf page that holds the image of some inodes is read back as those inodes,
less the child id that a leaf page does not store (`Node.read_of_image`).
-/
import BoltCpp.PageImage
import Mathlib.Data.List.Induction

namespace BoltCpp

open ByteMem ByteMem.Mem

/-! ### The loop over the elements -/

/-- A loop over an index range that succeeds on every index. -/
theorem mapM_range_ok {ε α : Type} {f : Nat → Except ε α} (ys : List α) :
    (∀ i y, ys[i]? = some y → f i = .ok y) → (List.range ys.length).mapM f = .ok ys := by
  induction ys using List.reverseRecOn with
  | nil => intro _; rfl
  | append_singleton ys y ih =>
      intro h
      have hys : ∀ i z, ys[i]? = some z → f i = .ok z := by
        intro i z hz
        have hi : i < ys.length := (List.getElem?_eq_some_iff.mp hz).1
        exact h i z (by rw [List.getElem?_append_left hi, hz])
      have hy : f ys.length = .ok y := h _ _ (by simp)
      -- the loop over one index more is the loop, then that index
      rw [List.length_append, List.length_singleton, List.range_succ, List.mapM_append,
        ih hys, List.mapM_cons, hy]
      rfl

/-- A loop over an index range that has returned. -/
theorem mapM_range_inv {α : Type} {f : Nat → Except Fault α} {n : Nat} :
    ∀ {ys : List α}, (List.range n).mapM f = .ok ys →
      ys.length = n ∧ ∀ i y, ys[i]? = some y → f i = .ok y := by
  induction n with
  | zero =>
      intro ys h
      cases h
      exact ⟨rfl, fun _ _ hy => by cases hy⟩
  | succ n ih =>
      intro ys h
      rw [List.range_succ, List.mapM_append] at h
      obtain ⟨zs, hzs, h⟩ := ok_of_bind h
      obtain ⟨ws, hws, h⟩ := ok_of_bind h
      rw [List.mapM_cons] at hws
      obtain ⟨w, hw, hws⟩ := ok_of_bind hws
      cases hws
      cases h
      obtain ⟨hlen, hget⟩ := ih hzs
      refine ⟨by rw [List.length_append, hlen]; rfl, fun i y hy => ?_⟩
      rcases Nat.lt_or_ge i zs.length with hi | hi
      · rw [List.getElem?_append_left hi] at hy
        exact hget i y hy
      · -- the last one
        have hy : [w][i - zs.length]? = some y := (List.getElem?_append_right hi).symm.trans hy
        rw [List.getElem?_singleton] at hy
        split at hy
        · cases hy
          obtain rfl : i = n := by omega
          exact hw
        · cases hy

/-- The first iteration decides a loop that fails there. -/
theorem mapM_range_error {ε α : Type} {f : Nat → Except ε α} {n : Nat} {e : ε}
    (hn : 0 < n) (h : f 0 = .error e) : (List.range n).mapM f = .error e := by
  obtain ⟨k, rfl⟩ : ∃ k, n = k + 1 := ⟨n - 1, by omega⟩
  rw [List.range_succ_eq_map, List.mapM_cons, h]
  rfl

namespace Node

/-- The branch arm leaves the outer `inode` as it was, with an empty key. -/
theorem readInode_branch (m : Mem) (p i : Nat) :
    readInode m p false i = .error (.exit "read: zero-length inode key\n") := rfl

/-- The leaf arm fails on an element without a key. -/
theorem readInode_leaf_of_ksize_zero {m : Mem} {p : Nat}
    (h : LeafPageElement.ksize m (Page.leafPageElement m p (toUInt16 (0 : Nat))) = 0) :
    readInode m p true 0 = .error (.exit "read: zero-length inode key\n") := by
  simp only [readInode, if_true, LeafPageElement.key, h]
  rfl

/-! ### Whole pages -/

/-- `read` on a page with no elements. -/
theorem read_of_count_zero (n : Node) {m : Mem} {p : Nat} (h : Page.count m p = 0) :
    n.read m p = .ok { n with
      id_ := Page.id m p, isLeaf_ := decide (Page.flags m p &&& LeafPageFlag ≠ 0),
      inodes := [] } := by
  rw [read, h]
  rfl

theorem toNat_pos_of_ne_zero {c : UInt32} (h : c ≠ 0) : 0 < c.toNat :=
  Nat.pos_of_ne_zero fun h0 => h (UInt32.toNat_inj.mp h0)

/-- `read` on a page whose first element cannot be read. -/
theorem read_of_first_error (n : Node) {m : Mem} {p : Nat} {e : Fault}
    (hcount : Page.count m p ≠ 0)
    (h : readInode m p (decide (Page.flags m p &&& LeafPageFlag ≠ 0)) 0 = .error e) :
    n.read m p = .error e := by
  rw [read, mapM_range_error (toNat_pos_of_ne_zero hcount) h]
  rfl

/-- **Decoding.**  Reading a leaf page that holds the image of `xs`. -/
theorem read_of_image (n : Node) {m : Mem} {p : Nat} {xs : List INode}
    (hflags : Page.flags m p &&& LeafPageFlag ≠ 0)
    (hcount : (Page.count m p).toNat = xs.length) (hlen : xs.length ≤ 0xffff)
    (himage : HoldsImage m (Page.ptr m p) true xs)
    (hsize : (image true xs).length < 2 ^ 32) (hkeys : ∀ x ∈ xs, x.key ≠ []) :
    n.read m p = .ok { n with
      id_ := Page.id m p, isLeaf_ := true, inodes := xs.map fun x => { x with id := 0 },
      key_ := (xs.head?.map INode.key).getD n.key_ } := by
  have hinode : ∀ i y, (xs.map fun x => ({ x with id := 0 } : INode))[i]? = some y →
      readInode m p true i = .ok y := by
    intro i y hy
    rw [List.getElem?_map, Option.map_eq_some_iff] at hy
    obtain ⟨x, hx, rfl⟩ := hy
    have hi : i < xs.length := (List.getElem?_eq_some_iff.mp hx).1
    have helem := Page.leafPageElement_of_lt m p (by omega : i < 65536)
    obtain ⟨hf, hk, hv⟩ := himage.leafElement hsize hx
    -- the key is not empty, so the iteration does not exit
    have hne : x.key.length ≠ 0 := by
      have := hkeys x (List.mem_of_getElem? hx)
      simpa using this
    simp only [readInode, if_true, helem, hf, hk, hv, if_neg hne]
    rfl
  have hloop := mapM_range_ok _ hinode
  rw [List.length_map, ← hcount] at hloop
  rw [read, decide_eq_true hflags, hloop]
  cases xs with
  | nil => rfl
  | cons x rest =>
      have hpos : x.key.length > 0 := by
        have := hkeys x (by simp)
        exact List.length_pos_iff.mpr this
      simp only [List.map_cons, List.head?_cons, Option.map_some, Option.getD_some]
      simp only [bind, Except.bind, if_pos hpos]
      rfl

end Node

end BoltCpp
