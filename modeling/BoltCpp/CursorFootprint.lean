/-
BoltCpp/CursorFootprint.lean

What a cursor reads.

From the root of its bucket a cursor reaches pages and nodes (`Reached`).  Of a
node it may read anything, of a page the three header fields that say what it
is, and the elements with what they address (`Page.Reads`).  On a heap that is
the same there (`SameView`), `first`, `last`, `next`, `prev` and `keyValue`
do the same (`call_same`), step by step.
-/
import BoltCpp.CursorCalls
import BoltCpp.PageFootprint
import BoltCpp.Lib.Lockstep

namespace BoltCpp

open ByteMem ByteMem.Mem

/-! ### Pages -/

namespace Page

/-- The bytes of a page that its accessors read, `overflow_` and the id
apart; of a branch page the keys are not read. -/
inductive Reads (m : Mem) (p a : Nat) : Prop
  | flags (h : p + 8 ≤ a ∧ a < p + 10)
  | count (h : p + 12 ≤ a ∧ a < p + 16)
  | ptr (h : p + 24 ≤ a ∧ a < p + 32)
  | header {i : Nat} (hi : i < (Page.count m p).toNat) (h : a ∈ headerRange m p i)
  | key {i : Nat} (hleaf : Page.flags m p &&& LeafPageFlag ≠ 0) (hi : i < (Page.count m p).toNat)
      (h : a ∈ keyRange m p i)
  | value {i : Nat} (hleaf : Page.flags m p &&& LeafPageFlag ≠ 0)
      (hi : i < (Page.count m p).toNat) (h : a ∈ valueRange m p i)

variable {m m' : Mem} {p i : Nat}

/-- The second memory has the bytes that are read in the first one. -/
def SameReads (m m' : Mem) (p : Nat) : Prop := ∀ a, Reads m p a → m' a = m a

theorem SameReads.flags (h : SameReads m m' p) : Page.flags m' p = Page.flags m p := by
  rw [Page.flags, Page.flags,
    load_congr fun i hi => h (p + 8 + i) (.flags ⟨by omega, by omega⟩)]

theorem SameReads.count (h : SameReads m m' p) : Page.count m' p = Page.count m p := by
  rw [Page.count, Page.count,
    load_congr fun i hi => h (p + 12 + i) (.count ⟨by omega, by omega⟩)]

theorem SameReads.ptr (h : SameReads m m' p) : Page.ptr m' p = Page.ptr m p := by
  rw [Page.ptr, Page.ptr, load_congr fun i hi => h (p + 24 + i) (.ptr ⟨by omega, by omega⟩)]

theorem SameReads.elementAt (h : SameReads m m' p) (i : Nat) :
    elementAt m' p i = elementAt m p i := by
  rw [Page.elementAt, Page.elementAt, leafPageElement, leafPageElement, h.ptr]

/-- A field in the header of an element. -/
theorem SameReads.field (h : SameReads m m' p) (hi : i < (Page.count m p).toNat) (off k : Nat)
    (hk : off + k ≤ 16) :
    m'.load (Page.elementAt m p i + off) k = m.load (Page.elementAt m p i + off) k := by
  refine load_congr fun j hj => h _ (.header hi ⟨?_, ?_⟩)
  · show Page.elementAt m p i ≤ _
    omega
  · show _ < Page.elementAt m p i + leafPageElementSize
    rw [leafPageElementSize]
    omega

/-- The child id of an element. -/
theorem SameReads.id (h : SameReads m m' p) (hi : i < (Page.count m p).toNat) :
    BranchPageElement.id m' (branchPageElement m' p (toUInt16 (i : Int)))
      = BranchPageElement.id m (branchPageElement m p (toUInt16 (i : Int))) := by
  have helem : ∀ m : Mem, branchPageElement m p (toUInt16 (i : Int)) = Page.elementAt m p i :=
    fun _ => rfl
  rw [helem, helem, h.elementAt, BranchPageElement.id, BranchPageElement.id,
    h.field hi _ _ (by omega)]

/-- The entry of an element of a leaf page. -/
theorem SameReads.entry (h : SameReads m m' p) (hleaf : Page.flags m p &&& LeafPageFlag ≠ 0)
    (hi : i < (Page.count m p).toNat) :
    LeafPageElement.entry m' (leafPageElement m' p (toUInt16 (i : Int)))
      = LeafPageElement.entry m (leafPageElement m p (toUInt16 (i : Int))) := by
  have helem : ∀ m : Mem, leafPageElement m p (toUInt16 (i : Int)) = Page.elementAt m p i :=
    fun _ => rfl
  rw [helem, helem, h.elementAt]
  have hflags : LeafPageElement.flags m' (Page.elementAt m p i)
      = LeafPageElement.flags m (Page.elementAt m p i) := by
    have hload := h.field hi 0 4 (by omega)
    rw [Nat.add_zero] at hload
    rw [LeafPageElement.flags, LeafPageElement.flags, hload]
  have hpos : LeafPageElement.pos m' (Page.elementAt m p i)
      = LeafPageElement.pos m (Page.elementAt m p i) := by
    rw [LeafPageElement.pos, LeafPageElement.pos, h.field hi _ _ (by omega)]
  have hksize : LeafPageElement.ksize m' (Page.elementAt m p i)
      = LeafPageElement.ksize m (Page.elementAt m p i) := by
    rw [LeafPageElement.ksize, LeafPageElement.ksize, h.field hi _ _ (by omega)]
  have hvsize : LeafPageElement.vsize m' (Page.elementAt m p i)
      = LeafPageElement.vsize m (Page.elementAt m p i) := by
    rw [LeafPageElement.vsize, LeafPageElement.vsize, h.field hi _ _ (by omega)]
  -- where key and value are is the same, and so are their bytes
  have hkey : LeafPageElement.key m' (Page.elementAt m p i)
      = LeafPageElement.key m (Page.elementAt m p i) := by
    rw [LeafPageElement.key, LeafPageElement.key, hpos, hksize]
    exact read_congr fun j hj =>
      h _ (.key hleaf hi ⟨Nat.le_add_right _ _, Nat.add_lt_add_left hj _⟩)
  have hvalue : LeafPageElement.value m' (Page.elementAt m p i)
      = LeafPageElement.value m (Page.elementAt m p i) := by
    rw [LeafPageElement.value, LeafPageElement.value, hpos, hksize, hvsize]
    exact read_congr fun j hj =>
      h _ (.value hleaf hi ⟨Nat.le_add_right _ _, Nat.add_lt_add_left hj _⟩)
  rw [LeafPageElement.entry, LeafPageElement.entry, hflags, hkey, hvalue]

end Page

namespace Cursor

/-! ### What a bucket reaches -/

/-- The pages and nodes that a cursor gets to from the root. -/
inductive Reached (h : Heap) (b : Bucket) : Bucket.PageNode → Prop
  | root {s : Bucket.PageNode} (hs : b.pageNode b.root = .ok s) : Reached h b s
  | child {ref : ElemRef} {c : Int} {id : Pgid} {s : Bucket.PageNode}
      (hr : Reached h b (ref.page, ref.node)) (hleaf : ref.isLeaf h = .ok false)
      (hcount : ref.count h = .ok c) (hpos : 0 ≤ ref.index) (hlt : ref.index < c)
      (hid : ref.childId h = .ok id) (hs : b.pageNode id = .ok s) : Reached h b s

/-- Counts are not negative, and branches have children. -/
def Sound (h : Heap) (b : Bucket) : Prop :=
  ∀ ref : ElemRef, Reached h b (ref.page, ref.node) → ∀ c, ref.count h = .ok c →
    0 ≤ c ∧ (ref.isLeaf h = .ok false → 0 < c)

/-- A node of the bucket. -/
def UsesNode (h : Heap) (b : Bucket) (q : NodePtr) : Prop :=
  ∃ page, Reached h b (page, some q)

/-- A byte of a page of the bucket that is read. -/
def UsesByte (h : Heap) (b : Bucket) (a : Nat) : Prop :=
  ∃ p, Reached h b (some p, none) ∧ Page.Reads h.mem p a

/-- A heap in which the bucket looks as it does in `h`. -/
structure SameView (h : Heap) (b : Bucket) (h' : Heap) : Prop where
  node : ∀ q, UsesNode h b q → h'.node q = h.node q
  mem : ∀ a, UsesByte h b a → h'.mem a = h.mem a

section

variable {h h' : Heap} {b : Bucket} {ref : ElemRef} {stack rest : Stack} {fuel : Nat}

theorem SameView.page (hv : SameView h b h') {p : Nat} (hr : Reached h b (some p, none)) :
    Page.SameReads h.mem h'.mem p := fun a ha => hv.mem a ⟨p, hr, ha⟩

theorem isLeaf_same (hv : SameView h b h') (hr : Reached h b (ref.page, ref.node)) :
    ref.isLeaf h' = ref.isLeaf h := by
  obtain ⟨page, node, index⟩ := ref
  rcases node with - | q
  · rcases page with - | p
    · rfl
    · simp only [ElemRef.isLeaf, (hv.page hr).flags]
  · simp only [ElemRef.isLeaf, hv.node q ⟨page, hr⟩]

theorem count_same (hv : SameView h b h') (hr : Reached h b (ref.page, ref.node)) :
    ref.count h' = ref.count h := by
  obtain ⟨page, node, index⟩ := ref
  rcases node with - | q
  · rcases page with - | p
    · rfl
    · simp only [ElemRef.count, (hv.page hr).count]
  · simp only [ElemRef.count, hv.node q ⟨page, hr⟩]

/-- An index below the count of a page. -/
theorem index_of_lt {p : Nat} {j c : Int} (hcount : ElemRef.count h ⟨some p, none, j⟩ = .ok c)
    (hpos : 0 ≤ j) (hlt : j < c) :
    ∃ i : Nat, j = i ∧ i < (Page.count h.mem p).toNat := by
  have hc : toInt32 (Page.count h.mem p).toNat = c := Except.ok.inj hcount
  have hle : c ≤ (Page.count h.mem p).toNat := by
    rw [← hc, toInt32, Int.bmod_def]
    split <;> omega
  exact ⟨j.toNat, (Int.toNat_of_nonneg hpos).symm, by omega⟩

/-- A reference that a cursor may have on its stack. -/
structure Good (h : Heap) (b : Bucket) (ref : ElemRef) : Prop where
  reached : Reached h b (ref.page, ref.node)
  leaf : ref.isLeaf h = .ok true → ∀ c, ref.count h = .ok c → 0 ≤ ref.index ∨ c = 0
  branch : ref.isLeaf h = .ok false → ∀ c, ref.count h = .ok c → 0 ≤ ref.index ∧ ref.index < c

/-- Good references, a leaf on top. -/
structure Ready (h : Heap) (b : Bucket) (stack : Stack) : Prop where
  good : ∀ ref ∈ stack, Good h b ref
  top : ∀ ref ∈ stack.head?, ref.isLeaf h = .ok true

theorem count_of_isLeaf {l : Bool} (hleaf : ref.isLeaf h = .ok l) :
    ∃ c, ref.count h = .ok c := by
  obtain ⟨page, node, index⟩ := ref
  rcases node with - | q
  · rcases page with - | p
    · cases hleaf
    · exact ⟨_, rfl⟩
  · exact ⟨_, rfl⟩

theorem childId_same (hv : SameView h b h') (hg : Good h b ref)
    (hleaf : ref.isLeaf h = .ok false) : ref.childId h' = ref.childId h := by
  obtain ⟨c, hcount⟩ := count_of_isLeaf hleaf
  obtain ⟨hpos, hlt⟩ := hg.branch hleaf c hcount
  obtain ⟨page, node, index⟩ := ref
  rcases node with - | q
  · rcases page with - | p
    · cases hleaf
    · obtain ⟨i, rfl, hi⟩ := index_of_lt hcount hpos hlt
      simp only [ElemRef.childId, (hv.page hg.reached).id hi]
  · simp only [ElemRef.childId, hv.node q ⟨page, hg.reached⟩]

/-- The reference on top is to a leaf, so `keyValue` reads it as one. -/
theorem keyValue_same (hv : SameView h b h') (hs : Ready h b stack) :
    Cursor.keyValue h' stack = Cursor.keyValue h stack := by
  cases stack with
  | nil => rfl
  | cons ref rest =>
      have hg := hs.good ref (by simp)
      have hleaf := hs.top ref rfl
      obtain ⟨c, hcount⟩ := count_of_isLeaf hleaf
      simp only [Cursor.keyValue, back, pure_bind, count_same hv hg.reached, hcount, ok_bind]
      by_cases hout : c = 0 ∨ ref.index ≥ c
      · rw [if_pos hout, if_pos hout]
      · rw [if_neg hout, if_neg hout]
        have hpos : 0 ≤ ref.index := (hg.leaf hleaf c hcount).resolve_right (by omega)
        have hreached := hg.reached
        obtain ⟨page, node, index⟩ := ref
        have hlt : index < c := not_le.mp (not_or.mp hout).2
        rcases node with - | q
        · rcases page with - | p
          · cases hleaf
          · obtain ⟨i, hi, hin⟩ := index_of_lt hcount hpos hlt
            obtain rfl : index = i := hi
            have hflags : Page.flags h.mem p &&& LeafPageFlag ≠ 0 :=
              of_decide_eq_true (Except.ok.inj hleaf)
            have hentry := (hv.page hreached).entry hflags hin
            obtain ⟨hf, hk, hval⟩ := Entry.mk.inj hentry
            simp only [hf, hk, hval]
        · simp only [hv.node q ⟨page, hreached⟩]

/-! ### Good references -/

theorem Ready.nil : Ready h b [] := ⟨fun _ h => (by cases h), fun _ h => (by cases h)⟩

/-- The reference on top. -/
theorem Ready.good_of_back (hs : Ready h b stack) (hback : back stack = .ok ref) :
    Good h b ref := by
  cases stack with
  | nil => cases hback
  | cons r rest =>
      obtain rfl := Except.ok.inj hback
      exact hs.good r List.mem_cons_self

theorem good_cons (hg : Good h b ref) (hrest : ∀ r ∈ rest, Good h b r) :
    ∀ r ∈ ref :: rest, Good h b r := List.forall_mem_cons.mpr ⟨hg, hrest⟩

/-- At its first element. -/
theorem good_zero (hb : Sound h b) {s : Bucket.PageNode} (hr : Reached h b s) :
    Good h b ⟨s.1, s.2, 0⟩ :=
  ⟨hr, fun _ _ _ => Or.inl (le_refl 0),
    fun hleaf c hcount => ⟨le_refl 0, (hb ⟨s.1, s.2, 0⟩ hr c hcount).2 hleaf⟩⟩

/-- At its last element. -/
theorem good_last (hb : Sound h b) {s : Bucket.PageNode} (hr : Reached h b s) {c : Int}
    (hcount : ElemRef.count h ⟨s.1, s.2, 0⟩ = .ok c) : Good h b ⟨s.1, s.2, c - 1⟩ := by
  have hsound := hb ⟨s.1, s.2, 0⟩ hr c hcount
  refine ⟨hr, fun _ c' hcount' => ?_, fun hleaf c' hcount' => ?_⟩
  · obtain rfl : c = c' := Except.ok.inj (hcount.symm.trans hcount')
    show 0 ≤ c - 1 ∨ c = 0
    omega
  · obtain rfl : c = c' := Except.ok.inj (hcount.symm.trans hcount')
    have hpos := hsound.2 hleaf
    exact ⟨Int.sub_nonneg_of_le hpos, Int.sub_one_lt_of_le (le_refl c)⟩

/-- Where a good reference leads to. -/
theorem Good.child (hg : Good h b ref) (hleaf : ref.isLeaf h = .ok false) {id : Pgid}
    (hid : ref.childId h = .ok id) {s : Bucket.PageNode} (hs : b.pageNode id = .ok s) :
    Reached h b s := by
  obtain ⟨c, hcount⟩ := count_of_isLeaf hleaf
  obtain ⟨hpos, hlt⟩ := hg.branch hleaf c hcount
  exact .child hg.reached hleaf hcount hpos hlt hid hs

/-! ### The loops -/

/-- The same stack, and it is ready. -/
abbrev SameReady (h : Heap) (b : Bucket) (stack' stack : Stack) : Prop :=
  stack' = stack ∧ Ready h b stack

section

variable (hv : SameView h b h') (hb : Sound h b)

include hv hb in
theorem first_same : ∀ (fuel : Nat) {ref : ElemRef} {rest : Stack}, Good h b ref →
    (∀ r ∈ rest, Good h b r) →
    Lockstep (SameReady h b) (first_ h' b fuel (ref :: rest)) (first_ h b fuel (ref :: rest))
  | 0, _, _, _, _ => .error _
  | fuel + 1, ref, rest, hg, hrest => by
      simp only [first_, back, pure_bind, isLeaf_same hv hg.reached]
      refine .bind_self fun leaf hleaf => ?_
      cases leaf with
      | true =>
          refine .ok ⟨rfl, good_cons hg hrest, fun r hr => ?_⟩
          obtain rfl := Option.some.inj hr
          exact hleaf
      | false =>
          simp only [Bool.false_eq_true, if_false, childId_same hv hg hleaf]
          refine .bind_self fun id hid => .bind_self fun s hs => ?_
          exact first_same fuel (good_zero hb (hg.child hleaf hid hs)) (good_cons hg hrest)

include hv hb in
theorem last_same : ∀ (fuel : Nat) {ref : ElemRef} {rest : Stack}, Good h b ref →
    (∀ r ∈ rest, Good h b r) →
    Lockstep (SameReady h b) (last_ h' b fuel (ref :: rest)) (last_ h b fuel (ref :: rest))
  | 0, _, _, _, _ => .error _
  | fuel + 1, ref, rest, hg, hrest => by
      simp only [last_, back, pure_bind, isLeaf_same hv hg.reached]
      refine .bind_self fun leaf hleaf => ?_
      cases leaf with
      | true =>
          refine .ok ⟨rfl, good_cons hg hrest, fun r hr => ?_⟩
          obtain rfl := Option.some.inj hr
          exact hleaf
      | false =>
          simp only [Bool.false_eq_true, if_false, childId_same hv hg hleaf]
          refine .bind_self fun id hid => .bind_self fun s hs => ?_
          have hr := hg.child hleaf hid hs
          have hsame : ElemRef.count h' ⟨s.1, s.2, 0⟩ = ElemRef.count h ⟨s.1, s.2, 0⟩ :=
            count_same hv hr
          simp only [hsame]
          exact .bind_self fun c hcount =>
            last_same fuel (good_last hb hr hcount) (good_cons hg hrest)

include hv in
/-- One index further on, or further up. -/
theorem stepForward_same : ∀ {stack : Stack}, (∀ r ∈ stack, Good h b r) →
    Lockstep (fun o' o => o' = o ∧ ∀ st ∈ o, st ≠ [] ∧ ∀ r ∈ st, Good h b r)
      (stepForward h' stack) (stepForward h stack)
  | [], _ => .ok ⟨rfl, fun _ hno => by cases hno⟩
  | ref :: rest, hgood => by
      obtain ⟨hg, hrest⟩ := List.forall_mem_cons.mp hgood
      simp only [stepForward, count_same hv hg.reached]
      refine .bind_self fun c hcount => .ite (fun hlt => ?_) fun _ => stepForward_same hrest
      refine .ok ⟨rfl, fun st hst => ?_⟩
      obtain rfl := Option.some.inj hst
      refine ⟨List.cons_ne_nil _ _, good_cons ⟨hg.reached, fun hleaf c' hcount' => ?_,
        fun hleaf c' hcount' => ?_⟩ hrest⟩
      · have hcount' : ref.count h = .ok c' := hcount'
        obtain rfl : c = c' := Except.ok.inj (hcount.symm.trans hcount')
        rcases hg.leaf hleaf c hcount with hpos | hzero
        · exact Or.inl (by show 0 ≤ ref.index + 1; omega)
        · -- an index below zero is the last of an empty leaf
          exact Or.inr hzero
      · have hcount' : ref.count h = .ok c' := hcount'
        obtain rfl : c = c' := Except.ok.inj (hcount.symm.trans hcount')
        have hin := hg.branch hleaf c hcount
        exact ⟨by show 0 ≤ ref.index + 1; omega, by show ref.index + 1 < c; omega⟩

/-- What the loop of `next_` returns. -/
abbrev SameStepped (h : Heap) (b : Bucket) (r' r : Stack × KeyValue) : Prop :=
  r' = r ∧ Ready h b r.1

include hv in
/-- The end of every function: the stack, and something of the entry. -/
theorem answer_same {α : Type} (f : KeyValue → α) (hs : Ready h b stack) :
    Lockstep (fun r' r : Stack × α => r' = r ∧ Ready h b r.1)
      (Cursor.keyValue h' stack >>= fun kv => pure (stack, f kv))
      (Cursor.keyValue h stack >>= fun kv => pure (stack, f kv)) := by
  rw [keyValue_same hv hs]
  exact .bind_self fun kv _ => .ok ⟨rfl, hs⟩

include hv hb in
theorem nextLoop_same (fuel : Nat) : ∀ (restarts : Nat) {stack : Stack}, Ready h b stack →
    Lockstep (SameStepped h b) (nextLoop h' b fuel restarts stack)
      (nextLoop h b fuel restarts stack)
  | 0, _, _ => .error _
  | restarts + 1, stack, hs => by
      rw [nextLoop, nextLoop]
      refine .bind (stepForward_same hv hs.good) ?_
      rintro o _ ⟨rfl, ho⟩
      cases o with
      | none => exact .ok ⟨rfl, hs⟩
      | some st =>
          obtain ⟨hne, hgood⟩ := ho st rfl
          obtain ⟨ref, rest, rfl⟩ := List.exists_cons_of_ne_nil hne
          obtain ⟨hg, hrest⟩ := List.forall_mem_cons.mp hgood
          refine .bind (first_same hv hb fuel hg hrest) ?_
          rintro st _ ⟨rfl, hst⟩
          refine .bind_self fun top htop => ?_
          rw [count_same hv (hst.good_of_back htop).reached]
          refine .bind_self fun c _ => .ite (fun _ => ?_) fun _ => ?_
          · exact nextLoop_same fuel restarts hst
          · exact answer_same hv id hst

include hv hb in
theorem next_same (fuel : Nat) (hs : Ready h b stack) :
    Lockstep (SameStepped h b) (next_ h' b fuel stack) (next_ h b fuel stack) :=
  .ite (fun _ => nextLoop_same hv hb fuel fuel hs) fun _ => .error _

/-! ### The public functions -/

/-- The same stack and pair, and the stack is ready. -/
abbrev SameAnswer (h : Heap) (b : Bucket) (r' r : Stack × Pair) : Prop :=
  r' = r ∧ Ready h b r.1

include hv hb in
theorem first_call_same (fuel : Nat) (stack : Stack) :
    Lockstep (SameAnswer h b) (first h' b fuel stack) (first h b fuel stack) := by
  rw [first, first]
  refine .bind_self fun _ _ => .bind_self fun s hs => ?_
  refine .bind (first_same hv hb fuel (good_zero hb (.root hs)) fun _ hno => by cases hno) ?_
  rintro st _ ⟨rfl, hst⟩
  refine .bind_self fun top htop => ?_
  rw [count_same hv (hst.good_of_back htop).reached]
  refine .bind_self fun c _ => .ite (fun _ => ?_) fun _ => ?_
  · refine .bind (next_same hv hb fuel hst) ?_
    rintro r _ ⟨rfl, hr⟩
    exact answer_same hv toPair hr
  · exact answer_same hv toPair hst

include hv hb in
theorem last_call_same (fuel : Nat) (stack : Stack) :
    Lockstep (SameAnswer h b) (last h' b fuel stack) (last h b fuel stack) := by
  rw [last, last]
  refine .bind_self fun _ _ => .bind_self fun s hs => ?_
  have hr : Reached h b s := .root hs
  have hsame : ElemRef.count h' ⟨s.1, s.2, 0⟩ = ElemRef.count h ⟨s.1, s.2, 0⟩ :=
    count_same hv hr
  simp only [hsame]
  refine .bind_self fun c hcount => ?_
  refine .bind (last_same hv hb fuel (good_last hb hr hcount) fun _ hno => by cases hno) ?_
  rintro st _ ⟨rfl, hst⟩
  exact answer_same hv toPair hst

include hv hb in
/-- **One call**, where the bucket looks the same. -/
theorem call_same (fuel : Nat) {c : Call} (hc : ∀ key vec, c ≠ .seek key vec)
    (hs : Ready h b stack) :
    Lockstep (SameAnswer h b) (call h' b fuel stack c) (call h b fuel stack c) := by
  cases c with
  | first => exact first_call_same hv hb fuel stack
  | last => exact last_call_same hv hb fuel stack
  | next =>
      refine .bind_self fun _ _ => .bind (next_same hv hb fuel hs) ?_
      rintro r _ ⟨rfl, hr⟩
      exact .ok ⟨rfl, hr⟩
  | prev =>
      refine .bind_self fun _ _ => .ite (fun hnil => ?_) fun _ => ?_
      · refine .ok ⟨rfl, ?_⟩
        rw [List.length_eq_zero_iff.mp hnil]
        exact .nil
      · refine .bind (last_call_same hv hb fuel _) ?_
        rintro r _ ⟨rfl, hr⟩
        exact answer_same hv toPair hr
  | seek key vec => exact absurd rfl (hc key vec)
  | keyValue => exact answer_same hv toPair hs

end

end

end Cursor

end BoltCpp
