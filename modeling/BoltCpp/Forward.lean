/-
BoltCpp/Forward.lean

Forward traversal: `first` and repeated `next`.

From a position, `k` calls of `next` return the entries right of it, in order,
and nil once they are used up (`nexts_spec`).  `first` stands on the first
entry, wherever the first non-empty leaf is, so a whole traversal returns the
entries of the tree (`forward_traversal`).

The bound on the elements of a page is needed: the accessors take a 16-bit
index, so that element 65536 of a page is read as element 0 (`wide_page`).
-/
import BoltCpp.CursorTree
import Mathlib.Data.Fin.VecNotation

namespace BoltCpp

open ByteMem MultiTree

namespace Cursor

section

variable (h : Heap) (b : Bucket) (fuel : Nat)

/-- `k` calls of `next` and what they return. -/
def nexts : Nat → Stack → Except Fault (List Pair)
  | 0, _ => pure []
  | k + 1, stack => do
      let (stack, pair) ← next h b fuel stack
      let pairs ← nexts k stack
      pure (pair :: pairs)

/-- `first` and `k` calls of `next`. -/
def forwardScan (k : Nat) (stack : Stack) : Except Fault (List Pair) := do
  let (stack, pair) ← first h b fuel stack
  let pairs ← nexts h b fuel k stack
  pure (pair :: pairs)

end

variable {h : Heap} {b : Bucket} {L : Layout} {t : Tree} {fuel : Nat}

theorem assertOpen_ok (ht : HasTree h b L t) : assertOpen b = .ok () := by
  rw [assertOpen, ht.isOpen]
  rfl

/-- The public `last`, from what its parts return. -/
theorem last_returns (ht : HasTree h b L t) {p : Option Nat} {q : Option NodePtr} {c : Int}
    {stack : Stack} {kv : KeyValue} (hroot : b.pageNode b.root = .ok (p, q))
    (hcount : ElemRef.count h ⟨p, q, 0⟩ = .ok c)
    (hlast : last_ h b fuel [⟨p, q, c - 1⟩] = .ok stack) (hkv : keyValue h stack = .ok kv)
    (stack₀ : Stack) : last h b fuel stack₀ = .ok (stack, toPair kv) := by
  simp only [last, assertOpen_ok ht, hroot, ok_bind, hcount, hlast, hkv]
  rfl

/-- The public `next`. -/
theorem next_eq (hL : L.Faithful) (ht : HasTree h b L t) (hne : t.BranchesNonempty)
    (hfuel : t.size < fuel) {stack : Stack} {es : List Entry} {i : Nat} {fs : List TreeFrame}
    (hat : At h b L t stack es i fs) :
    ∃ stack' kv es' i' fs',
      next h b fuel stack = .ok (stack', pairOf (after ((.leaf es, i) :: fs)).head?) ∧
        Stepped h b L t ((.leaf es, i) :: fs) stack' kv es' i' fs' := by
  obtain ⟨stack', kv, es', i', fs', hrun, hs⟩ := next_spec hL hne hfuel hat
  refine ⟨stack', kv, es', i', fs', ?_, hs⟩
  rw [next, assertOpen_ok ht, ok_bind, hrun, ok_bind, ← toPair_keyValueOf, ← hs.result]
  rfl

/-- **Repeated `next`** returns the entries right of the position. -/
theorem nexts_spec (hL : L.Faithful) (ht : HasTree h b L t) (hne : t.BranchesNonempty)
    (hfuel : t.size < fuel) (k : Nat) :
    ∀ {stack : Stack} {es : List Entry} {i : Nat} {fs : List TreeFrame},
      At h b L t stack es i fs →
      nexts h b fuel k stack
        = .ok ((List.range k).map fun j => pairOf (after ((.leaf es, i) :: fs))[j]?) := by
  induction k with
  | zero => intro stack es i fs _; rfl
  | succ k ih =>
      intro stack es i fs hat
      obtain ⟨stack', kv, es', i', fs', hrun, hs⟩ := next_eq hL ht hne hfuel hat
      -- what is right of the new position is what was right of the old one, less one
      have htail : ∀ j, (after ((.leaf es', i') :: fs'))[j]?
          = (after ((.leaf es, i) :: fs))[j + 1]? := by
        intro j
        rw [hs.after, List.getElem?_tail]
      simp only [nexts, hrun, ok_bind, ih hs.at', htail, List.range_succ_eq_map, List.map_cons,
        List.map_map, List.head?_eq_getElem?]
      rfl

/-- `first` stands on the first entry of the tree, if there is one. -/
theorem first_eq (hL : L.Faithful) (ht : HasTree h b L t) (hne : t.BranchesNonempty)
    (hfuel : t.size < fuel) (stack₀ : Stack) :
    ∃ stack es i fs, first h b fuel stack₀ = .ok (stack, pairOf t.elements.head?) ∧
      At h b L t stack es i fs ∧ after ((.leaf es, i) :: fs) = t.elements.tail ∧
      ∀ e, t.elements.head? = some e → es[i]? = some e := by
  obtain ⟨⟨p, n⟩, hroot, hst⟩ := ht.root
  have hr₀ : LinkedRef h b L ⟨p, n, 0⟩ (t, 0) := ⟨hst, rfl⟩
  obtain ⟨stack, hfirst, hl⟩ := first_spec hL t hne hr₀ .nil (Nat.le_of_lt hfuel)
  obtain ⟨es, ls, fs, hleft, hleaves, hafter, -, hpath⟩ := leftmost_spec t [] hne (.root 0)
  rw [hleft] at hl
  have hat : At h b L t stack es 0 fs := ⟨hl, hpath⟩
  have helements : t.elements = es ++ (leavesAfter fs).flatten := by
    rw [elements, hleaves, hafter]
    simp [leavesAfter]
  rcases hl with - | ⟨hr, hrest⟩
  rename_i ref rest
  have hcount : ref.count h = .ok (es.length : Int) := count_of_stored hL hr.stored
  rcases es with - | ⟨e, es⟩
  · -- the first leaf is empty, `next_` looks for the first entry
    obtain ⟨stack', kv, es', i', fs', hrun, hs⟩ := next_spec hL hne hfuel hat
    have hafter' : after ((.leaf [], 0) :: fs) = t.elements := by
      rw [helements]
      rfl
    have hcurrent : es'[i']? = t.elements.head? := by
      rw [hs.current rfl, hafter']
    refine ⟨stack', es', i', fs', ?_, hs.at', by rw [hs.after, hafter'], ?_⟩
    · simp only [first, assertOpen_ok ht, hroot, hfirst, ok_bind, back, pure_bind, hcount,
        List.length_nil, Nat.cast_zero, if_true, hrun, keyValue_of_at hL hs.at', hcurrent,
        toPair_keyValueOf]
      rfl
    · rw [hcurrent]
      exact fun e he => he
  · -- the first leaf has an entry, and `first` stops on it
    have hne0 : ¬ (((e :: es).length : Nat) : Int) = 0 := by
      rw [List.length_cons]
      omega
    refine ⟨ref :: rest, e :: es, 0, fs, ?_, hat, ?_, ?_⟩
    · simp only [first, assertOpen_ok ht, hroot, hfirst, ok_bind, back, pure_bind, hcount,
        if_neg hne0, keyValue_of_at hL hat, helements, toPair_keyValueOf]
      rfl
    · rw [helements]
      rfl
    · intro e' he'
      rw [helements] at he'
      exact he'

/-- A whole traversal, in any layout the accessors agree with. -/
theorem forwardScan_eq (hL : L.Faithful) (ht : HasTree h b L t) (hne : t.BranchesNonempty)
    (hfuel : t.size < fuel) (k : Nat) (stack₀ : Stack) :
    forwardScan h b fuel k stack₀
      = .ok ((List.range (k + 1)).map fun j => pairOf t.elements[j]?) := by
  obtain ⟨stack, es, i, fs, hfirst, hat, hafter, -⟩ := first_eq hL ht hne hfuel stack₀
  have htail : ∀ j, (after ((.leaf es, i) :: fs))[j]? = t.elements[j + 1]? := by
    intro j
    rw [hafter, List.getElem?_tail]
  simp only [forwardScan, hfirst, ok_bind, nexts_spec hL ht hne hfuel k hat, htail,
    List.range_succ_eq_map, List.map_cons, List.map_map, List.head?_eq_getElem?]
  rfl

/-- **Forward traversal is complete, ordered and ends.**  Over every stored
tree whose pages hold at most 65536 elements, `first` and `k` calls of `next`
return the first `k + 1` entries of the leaves from left to right, empty
leaves skipped, and nil for what is past the end.  The fuel does not depend
on `k`. -/
theorem forward_traversal (ht : HasTree h b fileLayout t) (hne : t.BranchesNonempty)
    (hfuel : t.size < fuel) (k : Nat) (stack₀ : Stack) :
    forwardScan h b fuel k stack₀
      = .ok ((List.range (k + 1)).map fun j => pairOf t.elements[j]?) :=
  forwardScan_eq fileLayout_faithful ht hne hfuel k stack₀

/-- The page of `sampleLeaf`, and two nodes: a branch over pages 3 and 4, and
a leaf with the inodes `xs`. -/
def sampleHeap (xs : List INode) : Heap where
  mem := sampleLeafMem
  node n :=
    if n = 1 then ⟨false, false, [], 2, none, [{ id := 3, key := [98] }, { id := 4, key := [99] }]⟩
    else ⟨true, false, [], 4, some 1, xs⟩

/-- Page 3 is a dirty page of the transaction, the root and page 4 are nodes. -/
def sampleBucket : Bucket where
  root := 2
  tx_ :=
    { db_ := some { data_ := 65536, pageSize_ := 4096 }
      pages_ := fun id => if id = 3 then some 4096 else none }
  page := none
  rootNode := none
  nodes id := if id = 2 then some 1 else if id = 4 then some 2 else none

def sampleTree (xs : List INode) : Tree :=
  .branch 2 ![[98], [99]]
    ![.leaf (sampleLeaf.inodes.map INode.entry), .leaf (xs.map INode.entry)]

theorem hasTree_sample (xs : List INode) :
    HasTree (sampleHeap xs) sampleBucket fileLayout (sampleTree xs) := by
  have hpage : Page.HoldsLeaf sampleLeafMem 4096 sampleLeaf.inodes :=
    ⟨by decide, by decide, holdsImage_write _ _ _ _⟩
  refine ⟨rfl, (none, some 1), rfl, ![3, 4], ⟨rfl, rfl⟩, fun i => ?_⟩
  match i with
  | 0 => exact ⟨(some 4096, none), rfl, holdsEntries_of_holdsLeaf hpage (by decide) (by decide)⟩
  | 1 => exact ⟨(none, some 2), rfl, rfl, rfl⟩

theorem branchesNonempty_sample (xs : List INode) : (sampleTree xs).BranchesNonempty := by
  refine ⟨by decide, fun i => ?_⟩
  match i with
  | 0 => trivial
  | 1 => trivial

theorem forward_traversal_sample :
    forwardScan (sampleHeap []) sampleBucket 4 3 []
      = .ok [(some [98], none), (some [98, 0], some [1, 2]), (none, none), (none, none)] :=
  (forward_traversal (hasTree_sample []) (branchesNonempty_sample []) (by decide) 3 []).trans rfl

/-! ### A page that is too wide -/

/-- Three-byte keys in ascending order. -/
def wideInode (i : Nat) : INode :=
  { key := [UInt8.ofNat (i / 65536), UInt8.ofNat (i / 256), UInt8.ofNat i] }

def wideInodes : List INode := (List.range 65537).map wideInode

/-- A mapped file at 65536 with a leaf page of 65537 elements at page 3. -/
def wideHeap : Heap where
  mem := (Page.setCount (Page.construct (fun _ => 0) 77824 3 LeafPageFlag 77856) 77824
    65537).write 77856 (image true wideInodes)
  node _ := ⟨true, false, [], 0, none, []⟩

def wideBucket : Bucket where
  root := 3
  tx_ := { db_ := some { data_ := 65536, pageSize_ := 4096 }, pages_ := fun _ => none }
  page := none
  rootNode := none
  nodes _ := none

def wideTree : Tree := .leaf (wideInodes.map INode.entry)

/-- The tree the accessors make of it. -/
def wideTreeRead : Tree :=
  .leaf ((List.range 65537).map fun i => (wideInode (i % 65536)).entry)

theorem length_wideInodes : wideInodes.length = 65537 := by
  rw [wideInodes, List.length_map, List.length_range]

theorem getElem?_wideInodes {i : Nat} (hi : i < 65537) :
    wideInodes[i]? = some (wideInode i) := by
  rw [wideInodes, List.getElem?_map, List.getElem?_range hi]
  rfl

theorem length_payload_map {f : Nat → INode} (hf : ∀ i, (f i).bytes.length = 3)
    (xs : List Nat) : (payload (xs.map f)).length = 3 * xs.length := by
  induction xs with
  | nil => rfl
  | cons x xs ih =>
      rw [List.map_cons, payload_cons, List.length_append, ih, List.length_cons, hf]
      omega

theorem length_image_wideInodes : (image true wideInodes).length < 2 ^ 32 := by
  rw [length_image, length_wideInodes, wideInodes, length_payload_map (fun _ => rfl),
    List.length_range]
  decide

/-- What is written behind the header leaves it alone. -/
theorem wide_header {flag : UInt16} {m : Mem}
    (hm : m = Page.setCount (Page.construct (fun _ => 0) 77824 3 flag 77856) 77824 65537)
    (hflags : Page.flags m 77824 = flag) (hptr : Page.ptr m 77824 = 77856) (bs : List UInt8) :
    Page.flags (m.write 77856 bs) 77824 = flag ∧
      (Page.count (m.write 77856 bs) 77824).toNat = 65537 ∧
        Page.ptr (m.write 77856 bs) 77824 = 77856 := by
  have hsame : Page.SameHeader m (m.write 77856 bs) 77824 77824 :=
    Page.sameHeader_write m bs (Or.inr (Nat.le_refl _))
  refine ⟨hsame.flags.trans hflags, ?_, hsame.ptr.trans hptr⟩
  rw [hsame.count, hm, Page.count_setCount]
  decide

theorem wideHeap_header :
    Page.flags wideHeap.mem 77824 = LeafPageFlag ∧
      (Page.count wideHeap.mem 77824).toNat = 65537 ∧ Page.ptr wideHeap.mem 77824 = 77856 :=
  wide_header rfl (by decide) (by decide) _

/-- In either layout the page is a stored tree. -/
theorem hasTree_wide {L : Layout} {es : List Entry} (hlen : es.length = 65537)
    (hallows : L.allows 65537)
    (hslot : ∀ i < 65537, L.slot i < 65537 ∧ es[i]? = some (wideInode (L.slot i)).entry) :
    HasTree wideHeap wideBucket L (.leaf es) := by
  obtain ⟨hflags, hcount, hptr⟩ := wideHeap_header
  have hpage : DB.page { data_ := 65536, pageSize_ := 4096 } 3 = 77824 := by decide
  refine ⟨rfl, (some 77824, none), by rw [← hpage]; rfl, ?_⟩
  have himage : HoldsImage wideHeap.mem (Page.ptr wideHeap.mem 77824) true wideInodes := by
    rw [hptr]
    exact holdsImage_write _ _ _ _
  refine holdsEntries_of_image (by rw [hflags]; decide)
    (by rw [hcount, hlen]) (by rwa [hlen]) himage length_image_wideInodes fun i hi => ?_
  obtain ⟨hlt, he⟩ := hslot i (by omega)
  rw [he, getElem?_wideInodes hlt]
  rfl

theorem getElem?_map_range {α : Type} (f : Nat → α) {n i : Nat} (hi : i < n) :
    ((List.range n).map f)[i]? = some (f i) := by
  rw [List.getElem?_map, List.getElem?_range hi]
  rfl

/-- **Element 65536 is read as element 0.**  The traversal of a page of 65537
elements does not end with the last key. -/
theorem wide_page :
    HasTree wideHeap wideBucket unboundedLayout wideTree ∧ wideTree.BranchesNonempty ∧
      ∀ fuel, wideTree.size < fuel → forwardScan wideHeap wideBucket fuel 65536 []
        ≠ .ok ((List.range (65536 + 1)).map fun j => pairOf wideTree.elements[j]?) := by
  have hread : HasTree wideHeap wideBucket readLayout wideTreeRead := by
    refine hasTree_wide (by rw [List.length_map, List.length_range])
      (by decide : 65537 < 2 ^ 31) fun i hi => ⟨?_, getElem?_map_range _ hi⟩
    have : i % 65536 < 65536 := Nat.mod_lt _ (by decide)
    exact Nat.lt_succ_of_lt this
  refine ⟨hasTree_wide (by rw [List.length_map, length_wideInodes]) True.intro
    fun i hi => ⟨hi, ?_⟩, True.intro, fun fuel hfuel heq => ?_⟩
  · rw [List.getElem?_map, getElem?_wideInodes hi]
    rfl
  · have hfuel' : wideTreeRead.size < fuel := by
      rw [wideTree, size] at hfuel
      rwa [wideTreeRead, size]
    rw [forwardScan_eq readLayout_faithful hread True.intro hfuel'] at heq
    have hlast := congrArg (fun l => l[65536]?) (Except.ok.inj heq)
    simp only [getElem?_map_range _ (Nat.lt_succ_self 65536)] at hlast
    have hlhs : wideTreeRead.elements[65536]? = some (wideInode 0).entry := by
      rw [wideTreeRead, elements_leaf, getElem?_map_range _ (by decide)]
    have hrhs : wideTree.elements[65536]? = some (wideInode 65536).entry := by
      rw [wideTree, elements_leaf, List.getElem?_map, getElem?_wideInodes (by decide)]
      rfl
    rw [hlhs, hrhs] at hlast
    revert hlast
    decide

end Cursor

end BoltCpp
