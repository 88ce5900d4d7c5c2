/-
BoltCpp/Isolation.lean

Readers and a writer on one heap, in any order.

The writer works on nodes of its own: it updates them (`Node::put`,
`Node::del`), writes them to pages (`Node::write`) and reads pages into them
(`Node::read`).  As long as it keeps off what the buckets of the readers use,
every order of its steps and the readers' calls comes to the same: the readers
get the answers they would get if they were alone with the heap they began on,
and the writer does what it would do alone (`isolated_iff`).

Nodes are taken as they are in memory (`NodeRef`).  So what the readers use are
not only the bytes of pages, but also those that the slices in their nodes
refer to, which may be on any page.
-/
import BoltCpp.CursorForms
import BoltCpp.CursorFootprint
import BoltCpp.SliceRef

namespace BoltCpp

open ByteMem ByteMem.Mem

/-! ### Heaps with slices -/

/-- A byte that the node refers to. -/
def NodeRef.Refers (n : NodeRef) (a : Nat) : Prop := n.Covers a ∨ n.key_.Covers a

theorem NodeRef.deref_congr {n : NodeRef} {m m' : Mem} (h : ∀ a, n.Refers a → m' a = m a) :
    n.deref m' = n.deref m := by
  have hinodes : n.inodes.map (INodeRef.deref m') = n.inodes.map (INodeRef.deref m) :=
    inodes_deref_congr fun a ha => h a (Or.inl ha)
  rw [deref, deref, hinodes, SliceRef.bytes_congr fun a ha => h a (Or.inr ha)]

/-- Memory and nodes. -/
structure RefHeap where
  mem : Mem
  node : NodePtr → NodeRef

namespace RefHeap

/-- The heap with another node at `q`. -/
def setNode (h : RefHeap) (q : NodePtr) (nd : NodeRef) : RefHeap :=
  { h with node := Function.update h.node q nd }

theorem setNode_node_self (h : RefHeap) (q : NodePtr) (nd : NodeRef) :
    (h.setNode q nd).node q = nd := Function.update_self _ _ _

theorem setNode_node_of_ne {r q : NodePtr} (h : RefHeap) (nd : NodeRef) (hne : r ≠ q) :
    (h.setNode q nd).node r = h.node r := Function.update_of_ne hne _ _

/-- What a cursor finds. -/
def deref (h : RefHeap) : Heap where
  mem := h.mem
  node q := (h.node q).deref h.mem

end RefHeap

namespace Cursor

/-! ### What a bucket uses -/

/-- A byte of a page of the bucket that is read, or one that a node of the
bucket refers to. -/
def Uses (h : RefHeap) (b : Bucket) (a : Nat) : Prop :=
  UsesByte h.deref b a ∨ ∃ q, UsesNode h.deref b q ∧ (h.node q).Refers a

/-- A heap that is the same where the bucket uses `h`. -/
structure Untouched (h : RefHeap) (b : Bucket) (h' : RefHeap) : Prop where
  node : ∀ q, UsesNode h.deref b q → h'.node q = h.node q
  mem : ∀ a, Uses h b a → h'.mem a = h.mem a

theorem Untouched.refl (h : RefHeap) (b : Bucket) : Untouched h b h :=
  ⟨fun _ _ => rfl, fun _ _ => rfl⟩

/-- **There the bucket looks as it does in `h`.** -/
theorem Untouched.view {h h' : RefHeap} {b : Bucket} (hu : Untouched h b h') :
    SameView h.deref b h'.deref where
  node q hq := by
    show (h'.node q).deref h'.mem = (h.node q).deref h.mem
    rw [hu.node q hq]
    exact NodeRef.deref_congr fun a ha => hu.mem a (Or.inr ⟨q, hq, ha⟩)
  mem a ha := hu.mem a (Or.inl ha)

/-! ### The writer -/

/-- A step of the writer. -/
inductive Work where
  | update (q : NodePtr) (op : NodeRef.Op)
  | save (q : NodePtr) (p : Nat)
  | load (q : NodePtr) (p : Nat)

namespace Work

def run (pgid : Pgid) (h : RefHeap) : Work → Except Fault RefHeap
  | update q op => do
      let nd ← (h.node q).runOp pgid h.mem op
      pure (h.setNode q nd)
  | save q p => do
      let m ← (h.node q).write h.mem p
      pure { h with mem := m }
  | load q p => do
      let nd ← (h.node q).read h.mem p
      pure (h.setNode q nd)

/-- The step changes nothing that bucket `b` uses in `h₀`; the page it writes
to has room for the node. -/
def Spares (h₀ : RefHeap) (b : Bucket) (h : RefHeap) : Work → Prop
  | update q _ => ¬ UsesNode h₀.deref b q
  | save q p =>
      Page.HasRoom h.mem p (h.node q).imageSize ∧
        ∀ a, (h.node q).Writes h.mem p a → ¬ Uses h₀ b a
  | load q _ => ¬ UsesNode h₀.deref b q

end Work

/-- Some steps. -/
def works (pgid : Pgid) (h : RefHeap) (ws : List Work) : Except Fault RefHeap :=
  ws.foldlM (Work.run pgid) h

section

variable {h₀ h h' : RefHeap} {b : Bucket} {pgid : Pgid} {w : Work} {q : NodePtr}

theorem untouched_setNode (hu : Untouched h₀ b h) (hq : ¬ UsesNode h₀.deref b q)
    (nd : NodeRef) : Untouched h₀ b (h.setNode q nd) where
  node r hr := by
    have hne : r ≠ q := fun heq => hq (heq ▸ hr)
    exact (h.setNode_node_of_ne nd hne).trans (hu.node r hr)
  mem := hu.mem

/-- **A step that spares a bucket** leaves it as it is. -/
theorem untouched_run (hu : Untouched h₀ b h) (hw : w.Spares h₀ b h)
    (hrun : w.run pgid h = .ok h') : Untouched h₀ b h' := by
  cases w with
  | update q op =>
      obtain ⟨nd, -, hrun⟩ := ok_of_bind hrun
      cases hrun
      exact untouched_setNode hu hw nd
  | save q p =>
      obtain ⟨m, hwrite, hrun⟩ := ok_of_bind hrun
      cases hrun
      refine ⟨hu.node, fun a ha => ?_⟩
      have hframe := NodeRef.write_frame hwrite hw.1 fun hin => hw.2 a hin ha
      exact hframe.trans (hu.mem a ha)
  | load q p =>
      obtain ⟨nd, -, hrun⟩ := ok_of_bind hrun
      cases hrun
      exact untouched_setNode hu hw nd

end

/-! ### Everybody at once -/

/-- A reader calls, or the writer takes a step. -/
inductive Act (ι : Type) where
  | call (i : ι) (c : Call)
  | work (w : Work)

section

variable {ι : Type} [DecidableEq ι]

/-- Readers `i` with cursors on the buckets `b i`, and the writer. -/
def together (pgid : Pgid) (b : ι → Bucket) (fuel : Nat) :
    List (Act ι) → RefHeap → (ι → Stack) →
      Except Fault (RefHeap × (ι → Stack) × List (ι × Pair))
  | [], h, cursors => pure (h, cursors, [])
  | .call i c :: acts, h, cursors => do
      let (stack, pair) ← Cursor.call h.deref (b i) fuel (cursors i) c
      let (h, cursors, answers) ←
        together pgid b fuel acts h (Function.update cursors i stack)
      pure (h, cursors, (i, pair) :: answers)
  | .work w :: acts, h, cursors => do
      let h ← w.run pgid h
      together pgid b fuel acts h cursors

/-- The calls of one reader. -/
def callsOf (i : ι) : List (Act ι) → List Call
  | [] => []
  | .call j c :: acts => if j = i then c :: callsOf i acts else callsOf i acts
  | .work _ :: acts => callsOf i acts

/-- The answers to one reader. -/
def answersOf (i : ι) : List (ι × Pair) → List Pair
  | [] => []
  | (j, pair) :: answers => if j = i then pair :: answersOf i answers else answersOf i answers

/-- Who calls, one after the other. -/
def callers : List (Act ι) → List ι
  | [] => []
  | .call i _ :: acts => i :: callers acts
  | .work _ :: acts => callers acts

/-- The steps of the writer. -/
def worksOf : List (Act ι) → List Work
  | [] => []
  | .call _ _ :: acts => worksOf acts
  | .work w :: acts => w :: worksOf acts

/-- Every step of the writer spares what the buckets use in `h₀`. -/
def Spares (pgid : Pgid) (h₀ : RefHeap) (b : ι → Bucket) : RefHeap → List Work → Prop
  | _, [] => True
  | h, w :: ws => (∀ i, w.Spares h₀ (b i) h) ∧
      ∀ h', w.run pgid h = .ok h' → Spares pgid h₀ b h' ws

/-- What everybody gets alone. -/
structure Alone (pgid : Pgid) (h₀ : RefHeap) (b : ι → Bucket) (fuel : Nat)
    (acts : List (Act ι)) (h : RefHeap) (cursors : ι → Stack) (h' : RefHeap) (cursors' : ι → Stack)
    (answers : List (ι × Pair)) : Prop where
  writer : works pgid h (worksOf acts) = .ok h'
  reader : ∀ i, observe h₀.deref (b i) fuel (callsOf i acts) (cursors i)
    = .ok (cursors' i, answersOf i answers)
  order : answers.map Prod.fst = callers acts

variable {pgid : Pgid} {h₀ h h' : RefHeap} {b : ι → Bucket} {fuel : Nat} {i : ι} {c : Call}
  {acts : List (Act ι)} {cursors cursors' : ι → Stack} {answers : List (ι × Pair)}

/-- What the readers rely on while the writer is at work. -/
structure Undisturbed (h₀ : RefHeap) (b : ι → Bucket) (h : RefHeap) (cursors : ι → Stack) :
    Prop where
  untouched : ∀ i, Untouched h₀ (b i) h
  ready : ∀ i, Ready h₀.deref (b i) (cursors i)

/-- A call returns what it would have returned at the beginning. -/
theorem call_undisturbed (hu : Undisturbed h₀ b h cursors) (hb : ∀ i, Sound h₀.deref (b i))
    (hc : ∀ key vec, c ≠ .seek key vec) (fuel : Nat) (i : ι) :
    Cursor.call h.deref (b i) fuel (cursors i) c = Cursor.call h₀.deref (b i) fuel (cursors i) c ∧
      ∀ stack pair, Cursor.call h₀.deref (b i) fuel (cursors i) c = .ok (stack, pair) →
        Undisturbed h₀ b h (Function.update cursors i stack) := by
  have hsame := call_same (hu.untouched i).view (hb i) fuel hc (hu.ready i)
  generalize Cursor.call h.deref (b i) fuel (cursors i) c = x at hsame
  generalize Cursor.call h₀.deref (b i) fuel (cursors i) c = y at hsame
  cases hsame with
  | @ok r' r hr =>
      obtain ⟨rfl, hset⟩ := hr
      refine ⟨rfl, fun stack pair hr => ⟨hu.untouched, fun j => ?_⟩⟩
      cases hr
      by_cases hj : j = i
      · subst hj
        rw [Function.update_self]
        exact hset
      · rw [Function.update_of_ne hj]
        exact hu.ready j
  | error e => exact ⟨rfl, fun _ _ hno => by cases hno⟩

omit [DecidableEq ι] in
/-- A step of the writer does not disturb the readers. -/
theorem run_undisturbed (hu : Undisturbed h₀ b h cursors) {w : Work}
    (hw : ∀ i, w.Spares h₀ (b i) h) (hrun : w.run pgid h = .ok h') :
    Undisturbed h₀ b h' cursors :=
  ⟨fun i => untouched_run (hu.untouched i) (hw i) hrun, hu.ready⟩

omit [DecidableEq ι] in
theorem observe_cons {h : Heap} {b : Bucket} {cs : List Call} {stack stack' : Stack}
    {pairs : List Pair} :
    observe h b fuel (c :: cs) stack = .ok (stack', pairs) ↔
      ∃ stack₁ pair pairs', Cursor.call h b fuel stack c = .ok (stack₁, pair) ∧
        observe h b fuel cs stack₁ = .ok (stack', pairs') ∧ pairs = pair :: pairs' := by
  constructor
  · intro hobs
    obtain ⟨⟨stack₁, pair⟩, hcall, hobs⟩ := ok_of_bind hobs
    obtain ⟨⟨stack₂, pairs'⟩, hrest, hobs⟩ := ok_of_bind hobs
    cases hobs
    exact ⟨stack₁, pair, pairs', hcall, hrest, rfl⟩
  · rintro ⟨stack₁, pair, pairs', hcall, hrest, rfl⟩
    simp only [observe, hcall, hrest, ok_bind]
    rfl

/-- The same call in front of what everybody gets alone. -/
theorem alone_call_iff {stack : Stack} {pair : Pair}
    (hcall : Cursor.call h₀.deref (b i) fuel (cursors i) c = .ok (stack, pair)) :
    Alone pgid h₀ b fuel (.call i c :: acts) h cursors h' cursors' ((i, pair) :: answers) ↔
      Alone pgid h₀ b fuel acts h (Function.update cursors i stack) h' cursors' answers := by
  have hself : ∀ {st : Stack} {pairs : List Pair},
      observe h₀.deref (b i) fuel (callsOf i (.call i c :: acts)) (cursors i)
          = .ok (st, pair :: pairs) ↔
        observe h₀.deref (b i) fuel (callsOf i acts) stack = .ok (st, pairs) := by
    intro st pairs
    rw [callsOf, if_pos rfl, observe_cons]
    constructor
    · rintro ⟨stack₁, pair₁, pairs₁, hcall₁, hrest, heq⟩
      cases hcall.symm.trans hcall₁
      cases heq
      exact hrest
    · exact fun hrest => ⟨stack, pair, pairs, hcall, hrest, rfl⟩
  have hself' : answersOf i ((i, pair) :: answers) = pair :: answersOf i answers := if_pos rfl
  constructor
  · intro ha
    refine ⟨ha.writer, fun j => ?_, (List.cons.inj ha.order).2⟩
    have hj := ha.reader j
    by_cases heq : i = j
    · subst heq
      rw [hself', hself] at hj
      rw [Function.update_self]
      exact hj
    · rw [callsOf, answersOf, if_neg heq, if_neg heq] at hj
      rw [Function.update_of_ne (Ne.symm heq)]
      exact hj
  · intro ha
    refine ⟨ha.writer, fun j => ?_, congrArg (i :: ·) ha.order⟩
    have hj := ha.reader j
    by_cases heq : i = j
    · subst heq
      rw [Function.update_self] at hj
      rw [hself', hself]
      exact hj
    · rw [Function.update_of_ne (Ne.symm heq)] at hj
      rw [callsOf, answersOf, if_neg heq, if_neg heq]
      exact hj

/-- Who answers alone has answered the first call. -/
theorem Alone.first_call
    (ha : Alone pgid h₀ b fuel (.call i c :: acts) h cursors h' cursors' answers) :
    ∃ stack pair answers', answers = (i, pair) :: answers' ∧
      Cursor.call h₀.deref (b i) fuel (cursors i) c = .ok (stack, pair) := by
  have horder : answers.map Prod.fst = i :: callers acts := ha.order
  obtain ⟨⟨j, pair⟩, answers', rfl, rfl, -⟩ := List.map_eq_cons_iff.mp horder
  have hreader := ha.reader j
  rw [callsOf, if_pos rfl, observe_cons, answersOf, if_pos rfl] at hreader
  obtain ⟨stack, pair₁, pairs, hcall, -, heq⟩ := hreader
  cases heq
  exact ⟨stack, pair, answers', rfl, hcall⟩

/-- A step of the writer in front of what everybody gets alone. -/
theorem alone_work_iff {w : Work} {h₁ : RefHeap} (hstep : w.run pgid h = .ok h₁) :
    Alone pgid h₀ b fuel (.work w :: acts) h cursors h' cursors' answers ↔
      Alone pgid h₀ b fuel acts h₁ cursors h' cursors' answers := by
  have hworks : works pgid h (worksOf (.work w :: acts)) = works pgid h₁ (worksOf acts) := by
    rw [worksOf, works, List.foldlM_cons, hstep]
    rfl
  exact ⟨fun ha => ⟨hworks.symm.trans ha.writer, ha.reader, ha.order⟩,
    fun ha => ⟨hworks.trans ha.writer, ha.reader, ha.order⟩⟩

theorem noSeek_of_call {acts : List (Act ι)}
    (h : ∀ j, NoSeek (callsOf j (.call i c :: acts))) :
    NoSeek (c :: callsOf i acts) ∧ ∀ j, NoSeek (callsOf j acts) := by
  constructor
  · have hi := h i
    rwa [callsOf, if_pos rfl] at hi
  · intro j d hd
    refine h j d ?_
    rw [callsOf]
    split
    · exact List.mem_cons_of_mem c hd
    · exact hd

/-- Everybody gets what everybody gets alone, from the point where the calls
are as good as made at the beginning. -/
theorem together_iff (hb : ∀ i, Sound h₀.deref (b i)) (acts : List (Act ι)) :
    ∀ {h : RefHeap} {cursors : ι → Stack} {h' cursors' answers},
      Undisturbed h₀ b h cursors → (∀ i, NoSeek (callsOf i acts)) →
      Spares pgid h₀ b h (worksOf acts) →
      (together pgid b fuel acts h cursors = .ok (h', cursors', answers) ↔
        Alone pgid h₀ b fuel acts h cursors h' cursors' answers) := by
  induction acts with
  | nil =>
      intro h cursors h' cursors' answers _ _ _
      constructor
      · intro hrun
        cases hrun
        exact ⟨rfl, fun i => rfl, rfl⟩
      · intro ha
        obtain rfl := Except.ok.inj ha.writer
        obtain rfl : answers = [] := List.map_eq_nil_iff.mp ha.order
        have hcursors : cursors = cursors' := funext fun i =>
          congrArg Prod.fst (Except.ok.inj (ha.reader i))
        rw [hcursors]
        rfl
  | cons act acts ih =>
      intro h cursors h' cursors' answers hu hcalls hspares
      cases act with
      | work w =>
          obtain ⟨hw, hrest⟩ := hspares
          constructor
          · intro hrun
            obtain ⟨h₁, hstep, hrun⟩ := ok_of_bind hrun
            exact (alone_work_iff hstep).mpr
              ((ih (run_undisturbed hu hw hstep) hcalls (hrest h₁ hstep)).mp hrun)
          · intro ha
            obtain ⟨h₁, hstep, -⟩ := ok_of_bind ha.writer
            rw [together, hstep, ok_bind]
            exact (ih (run_undisturbed hu hw hstep) hcalls (hrest h₁ hstep)).mpr
              ((alone_work_iff hstep).mp ha)
      | call i c =>
          obtain ⟨hfirst, hrest⟩ := noSeek_of_call hcalls
          obtain ⟨hsame, hnext⟩ := call_undisturbed hu hb
            (hfirst c List.mem_cons_self) fuel i
          constructor
          · intro hrun
            obtain ⟨⟨stack, pair⟩, hcall, hrun⟩ := ok_of_bind hrun
            obtain ⟨⟨h₁, cursors₁, answers₁⟩, htail, hrun⟩ := ok_of_bind hrun
            cases hrun
            rw [hsame] at hcall
            exact (alone_call_iff hcall).mpr
              ((ih (hnext stack pair hcall) hrest hspares).mp htail)
          · intro ha
            obtain ⟨stack, pair, answers', rfl, hcall⟩ := ha.first_call
            have htail := (ih (hnext stack pair hcall) hrest hspares).mpr
              ((alone_call_iff hcall).mp ha)
            simp only [together, hsame, hcall, htail, ok_bind]
            rfl

/-- **Readers are isolated from the writer.**  Let the buckets of the readers
be sound in `h₀`, and let the steps of the writer, one after the other, spare
what these buckets use in `h₀`, the bytes that their nodes refer to among it.
Then any order of the readers' calls and the writer's steps ends without a
fault exactly if the writer alone does, and each reader alone on `h₀` does; and
with the heap the writer leaves alone, and the stacks and answers the readers
get alone, in the order in which they called. -/
theorem isolated_iff (hb : ∀ i, Sound h₀.deref (b i)) (hcalls : ∀ i, NoSeek (callsOf i acts))
    (hspares : Spares pgid h₀ b h₀ (worksOf acts)) :
    together pgid b fuel acts h₀ (fun _ => []) = .ok (h', cursors', answers) ↔
      Alone pgid h₀ b fuel acts h₀ (fun _ => []) h' cursors' answers :=
  together_iff hb acts ⟨fun i => .refl h₀ (b i), fun _ => .nil⟩ hcalls hspares

end

/-! ### Trees -/

section

variable {h : Heap} {b : Bucket} {L : Layout} {t : Tree}

/-- What a cursor reaches is part of the tree. -/
theorem reached_stored (hL : L.Faithful) (ht : HasTree h b L t) (hne : t.BranchesNonempty)
    {s : Bucket.PageNode} (hr : Reached h b s) : ∃ u, Stored h b L u s ∧ u.BranchesNonempty := by
  induction hr with
  | root hs =>
      obtain ⟨s', hs', hst⟩ := ht.root
      obtain rfl := Except.ok.inj (hs'.symm.trans hs)
      exact ⟨t, hst, hne⟩
  | @child ref c id s hr hleaf hcount hpos hlt hid hs ih =>
      obtain ⟨u, hst, hu⟩ := ih
      cases u with
      | leaf es =>
          rw [isLeaf_of_stored_leaf hst] at hleaf
          cases hleaf
      | branch n sep child =>
          have hwidth : c = (n : Int) :=
            Except.ok.inj (hcount.symm.trans (count_of_stored hL hst))
          obtain ⟨id', s', hid', hs', hst'⟩ :=
            childId_of_stored hL hst ⟨ref.index.toNat, by omega⟩ (by
              show ref.index = (ref.index.toNat : Int)
              omega)
          cases hid.symm.trans hid'
          cases hs.symm.trans hs'
          exact ⟨child _, hst', hu.2 _⟩

/-- **A bucket with a tree is sound.** -/
theorem sound_of_hasTree (hL : L.Faithful) (ht : HasTree h b L t) (hne : t.BranchesNonempty) :
    Sound h b := by
  intro ref hr c hcount
  obtain ⟨u, hst, hu⟩ := reached_stored hL ht hne hr
  have hwidth : c = (u.width : Int) := Except.ok.inj (hcount.symm.trans (count_of_stored hL hst))
  refine ⟨by omega, fun hleaf => ?_⟩
  cases u with
  | leaf es =>
      rw [isLeaf_of_stored_leaf hst] at hleaf
      cases hleaf
  | branch n sep child =>
      have hn : 0 < n := hu.1
      have hwidth : c = (n : Int) := hwidth
      omega

end

/-! ### A sample -/

/-- The page of `sampleLeaf`, the empty page 8 at 12288, and some bytes at
8192. -/
def sharedMem : Mem := Page.construct (sampleLeafMem.write 8192 [98, 99, 97, 1]) 12288 8 0 12320

/-- The root is a branch over pages 3 and 4, whose keys are at 8192; the other
nodes are empty leaves. -/
def sharedHeap : RefHeap where
  mem := sharedMem
  node q :=
    if q = 1 then
      ⟨false, false, {}, 2, none, [{ id := 3, key := ⟨8192, 1⟩ }, { id := 4, key := ⟨8193, 1⟩ }]⟩
    else ⟨true, false, {}, 4, some 1, []⟩

theorem hasTree_shared : HasTree sharedHeap.deref sampleBucket fileLayout (sampleTree []) := by
  have hpage : Page.HoldsLeaf sharedMem 4096 sampleLeaf.inodes :=
    ⟨by decide, by decide, by rw [HoldsImage]; decide⟩
  refine ⟨rfl, (none, some 1), rfl, ![3, 4], ⟨rfl, by decide⟩, Fin.forall_fin_two.mpr ⟨?_, ?_⟩⟩
  · exact ⟨(some 4096, none), rfl, holdsEntries_of_holdsLeaf hpage (by decide) (by decide)⟩
  · exact ⟨(none, some 2), rfl, rfl, rfl⟩

/-- Node 5 after an update, and what the writer does with it. -/
def ownNode : NodeRef :=
  ⟨true, false, {}, 4, some 1, [{ key := ⟨8194, 1⟩, value := ⟨8195, 1⟩ }]⟩

def sampleWorks : List Work := [.update 5 (.put ⟨8194, 1⟩ ⟨8195, 1⟩ 0 0), .save 5 12288]

/-- Two readers on one bucket, and the writer in between. -/
def sampleActs : List (Act Bool) :=
  [.call false .first, .work (.update 5 (.put ⟨8194, 1⟩ ⟨8195, 1⟩ 0 0)), .call true .last,
    .work (.save 5 12288), .call false .next]

theorem reached_shared {s : Bucket.PageNode} (hr : Reached sharedHeap.deref sampleBucket s) :
    s = (none, some 1) ∨ s = (some 4096, none) ∨ s = (none, some 2) := by
  induction hr with
  | root hs =>
      cases hs
      exact Or.inl rfl
  | @child ref c id s hr hleaf hcount hpos hlt hid hs ih =>
      obtain ⟨page, node, index⟩ := ref
      rcases ih with heq | heq | heq
      · -- the root has two children
        cases heq
        have hc : (2 : Int) = c := Except.ok.inj hcount
        have hindex : index = 0 ∨ index = 1 := by
          have hpos : 0 ≤ index := hpos
          have hlt : index < c := hlt
          omega
        rcases hindex with rfl | rfl
        · cases hid
          cases hs
          exact Or.inr (Or.inl rfl)
        · cases hid
          cases hs
          exact Or.inr (Or.inr rfl)
      · cases heq
        have hyes : decide (Page.flags sharedMem 4096 &&& LeafPageFlag ≠ 0) = true := by
          decide
        cases (congrArg Except.ok hyes).symm.trans hleaf
      · cases heq
        cases hleaf

/-- The page of the sample lies below 4165. -/
theorem usesByte_shared {a : Nat} (ha : UsesByte sharedHeap.deref sampleBucket a) :
    4096 ≤ a ∧ a < 4165 := by
  obtain ⟨p, hr, ha⟩ := ha
  obtain rfl : p = 4096 := by
    rcases reached_shared hr with heq | heq | heq <;> cases heq
    rfl
  have hcount : (Page.count sharedMem 4096).toNat = 2 := by decide
  have hin : ∀ f : Nat → Tiling.Range, (∀ i < 2, 4096 ≤ (f i).start ∧ (f i).stop ≤ 4165) →
      ∀ i, i < (Page.count sharedMem 4096).toNat → a ∈ f i → 4096 ≤ a ∧ a < 4165 := by
    rintro f hf i hi ⟨hge, hlt⟩
    obtain ⟨hstart, hstop⟩ := hf i (hcount ▸ hi)
    exact ⟨le_trans hstart hge, lt_of_lt_of_le hlt hstop⟩
  cases ha with
  | flags h => omega
  | count h => omega
  | ptr h => omega
  | header hi h => exact hin (Page.headerRange _ 4096) (by decide) _ hi h
  | key _ hi h => exact hin (Page.keyRange _ 4096) (by decide) _ hi h
  | value _ hi h => exact hin (Page.valueRange _ 4096) (by decide) _ hi h

theorem usesNode_shared {q : NodePtr} (hq : UsesNode sharedHeap.deref sampleBucket q) :
    q = 1 ∨ q = 2 := by
  obtain ⟨page, hr⟩ := hq
  rcases reached_shared hr with heq | heq | heq <;> cases heq
  · exact Or.inl rfl
  · exact Or.inr rfl

/-- The keys of the root are the bytes 8192 and 8193. -/
theorem uses_shared {a : Nat} (ha : Uses sharedHeap sampleBucket a) : a < 8194 := by
  rcases ha with ha | ⟨q, hq, ⟨x, hx, ha⟩ | ha⟩
  · have := usesByte_shared ha
    omega
  · rcases usesNode_shared hq with rfl | rfl
    · simp only [sharedHeap, if_true, List.mem_cons, List.not_mem_nil, or_false] at hx
      rcases hx with rfl | rfl <;> simp only [INodeRef.Covers, SliceRef.Covers] at ha <;> omega
    · cases hx
  · rcases usesNode_shared hq with rfl | rfl <;> exact absurd ha.2 (Nat.not_lt_of_le ha.1)

theorem spares_shared (b : Bool → Bucket) (hb : ∀ i, b i = sampleBucket) :
    Spares 1 sharedHeap b sharedHeap sampleWorks := by
  have hfirst : Work.run 1 sharedHeap (.update 5 (.put ⟨8194, 1⟩ ⟨8195, 1⟩ 0 0))
      = .ok (sharedHeap.setNode 5 ownNode) := rfl
  refine ⟨fun i hq => ?_, fun h' hrun => ?_⟩
  · rw [hb] at hq
    rcases usesNode_shared hq with hno | hno <;> cases hno
  · cases hfirst.symm.trans hrun
    refine ⟨fun i => ?_, fun _ _ => trivial⟩
    have hptr : Page.ptr sharedMem 12288 = 12320 := by decide
    refine ⟨Or.inr ?_, fun a ha huses => ?_⟩
    · show 12288 + 32 ≤ Page.ptr sharedMem 12288
      rw [hptr]
    · rw [hb] at huses
      have hlt := uses_shared huses
      rcases ha with hheader | ⟨hdata, -⟩
      · rw [Page.InHeader] at hheader
        omega
      · have hdata : Page.ptr sharedMem 12288 ≤ a := hdata
        omega

/-- What the two readers are told. -/
def sampleAnswers : List (Bool × Pair) :=
  [(false, some [98], none), (true, none, none), (false, some [98, 0], some [1, 2])]

/-- Where the cursors of the two readers are afterwards. -/
def sampleCursors : Bool → Stack
  | false => [⟨some 4096, none, 1⟩, ⟨none, some 1, 0⟩]
  | true => [⟨none, some 2, -1⟩, ⟨none, some 1, 1⟩]

theorem isolated_sample :
    ∃ h', works 1 sharedHeap sampleWorks = .ok h' ∧
      together 1 (fun _ => sampleBucket) 20 sampleActs sharedHeap (fun _ => [])
        = .ok (h', sampleCursors, sampleAnswers) := by
  obtain ⟨m', hwrite⟩ : ∃ m', ownNode.write sharedMem 12288 = .ok m' := ⟨_, rfl⟩
  have hwriter : works 1 sharedHeap sampleWorks
      = .ok { sharedHeap.setNode 5 ownNode with mem := m' } := by
    have hsave : Work.run 1 (sharedHeap.setNode 5 ownNode) (.save 5 12288)
        = .ok { sharedHeap.setNode 5 ownNode with mem := m' } := by
      have hnode := sharedHeap.setNode_node_self 5 ownNode
      have hmem : (sharedHeap.setNode 5 ownNode).mem = sharedMem := rfl
      rw [Work.run, hnode, hmem, hwrite]
      rfl
    rw [works, sampleWorks, List.foldlM_cons]
    exact congrArg (· >>= pure) hsave
  have hcalls : ∀ i, NoSeek (callsOf i sampleActs) := by
    intro i
    cases i <;> simp [NoSeek, sampleActs, callsOf]
  refine ⟨_, hwriter, (isolated_iff (fun _ => sound_of_hasTree fileLayout_faithful
    hasTree_shared (branchesNonempty_sample [])) hcalls
    (spares_shared _ fun _ => rfl)).mpr ⟨hwriter, fun i => ?_, rfl⟩⟩
  cases i <;> decide +kernel

end Cursor

end BoltCpp
