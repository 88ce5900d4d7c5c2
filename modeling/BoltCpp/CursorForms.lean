/-
BoltCpp/CursorForms.lean

A cursor does not see how a tree is held.

Two buckets that store one tree, each in its own mixture of pages and nodes
and under its own page ids, answer every sequence of `first`, `last`, `next`,
`prev` and `keyValue` alike, faults and lack of fuel included
(`observe_agrees`): two stacks are related if their references are to the same
subtrees with the same indices (`SameStack`), and every loop of the cursor runs
in lockstep on related stacks.

`Node::read` of a leaf page is a change of form.  Once the page id resolves to
the node that was read, a cursor goes on as if nothing had happened, with the
stack it has (`materialise_invisible`).
-/
import BoltCpp.CursorCalls
import BoltCpp.Lib.Lockstep

namespace BoltCpp

open ByteMem MultiTree

namespace Cursor

/-! ### Related stacks -/

/-- An index a reference to the subtree may have. -/
def IndexFits (i : Int) : Tree → Prop
  | .leaf es => 0 ≤ i ∨ es = []
  | .branch n _ _ => 0 ≤ i ∧ i < n

section

variable (h : Heap) (b : Bucket) (L : Layout) (h' : Heap) (b' : Bucket) (L' : Layout)

/-- Two references to one subtree, with one index; the first one is where some
page id leads. -/
structure SameRef (u : Tree) (ref ref' : ElemRef) : Prop where
  stored : Stored h b L u (ref.page, ref.node)
  stored' : Stored h' b' L' u (ref'.page, ref'.node)
  resolved : ∃ id, b.pageNode id = .ok (ref.page, ref.node)
  index : ref'.index = ref.index
  fits : IndexFits ref.index u
  nonempty : u.BranchesNonempty

/-- Two stacks that refer to the same subtrees. -/
abbrev SameRefs (stack stack' : Stack) : Prop :=
  List.Forall₂ (fun ref ref' => ∃ u, SameRef h b L h' b' L' u ref ref') stack stack'

/-- Both empty, or with the same leaf on top. -/
inductive SameStack : Stack → Stack → Prop
  | nil : SameStack [] []
  | leaf {es : List Entry} {ref ref' : ElemRef} {rest rest' : Stack}
      (hr : SameRef h b L h' b' L' (.leaf es) ref ref')
      (hrest : SameRefs h b L h' b' L' rest rest') : SameStack (ref :: rest) (ref' :: rest')

end

variable {h h' : Heap} {b b' : Bucket} {L L' : Layout} {u t : Tree} {ref ref' : ElemRef}
  {rest rest' stack stack' : Stack}

theorem SameStack.refs (hs : SameStack h b L h' b' L' stack stack') :
    SameRefs h b L h' b' L' stack stack' := by
  cases hs with
  | nil => exact .nil
  | leaf hr hrest => exact .cons ⟨_, hr⟩ hrest

section

variable (hL : L.Faithful) (hL' : L'.Faithful)

include hL hL' in
theorem SameRef.count (hr : SameRef h b L h' b' L' u ref ref') :
    ref.count h = .ok (u.width : Int) ∧ ref'.count h' = .ok (u.width : Int) :=
  ⟨count_of_stored hL hr.stored, count_of_stored hL' hr.stored'⟩

include hL hL' in
/-- The children that the index stands for, whatever their ids. -/
theorem SameRef.child {n : Nat} {sep : Fin n → Slice} {c : Fin n → Tree}
    (hr : SameRef h b L h' b' L' (.branch n sep c) ref ref') :
    ∃ (i : Fin n) (id id' : Pgid) (s s' : Bucket.PageNode), ref.childId h = .ok id ∧
      ref'.childId h' = .ok id' ∧ b.pageNode id = .ok s ∧ b'.pageNode id' = .ok s' ∧
      ∀ j, IndexFits j (c i) →
        SameRef h b L h' b' L' (c i) ⟨s.1, s.2, j⟩ ⟨s'.1, s'.2, j⟩ := by
  obtain ⟨h0, hlt⟩ := hr.fits
  obtain ⟨i, hi⟩ := Int.eq_ofNat_of_zero_le h0
  have hin : i < n := by omega
  obtain ⟨id, s, hid, hp, hst⟩ := childId_of_stored hL hr.stored ⟨i, hin⟩ hi
  obtain ⟨id', s', hid', hp', hst'⟩ := childId_of_stored hL' hr.stored' ⟨i, hin⟩
    (hr.index.trans hi)
  exact ⟨⟨i, hin⟩, id, id', s, s', hid, hid', hp, hp', fun j hj =>
    ⟨hst, hst', ⟨id, hp⟩, rfl, hj, hr.nonempty.2 _⟩⟩

include hL hL' in
theorem SameStack.keyValue (hs : SameStack h b L h' b' L' stack stack') :
    Lockstep Eq (keyValue h stack) (keyValue h' stack') := by
  cases hs with
  | nil => exact .error _
  | @leaf es ref ref' rest rest' hr hrest =>
      by_cases hneg : ref.index < 0
      · -- before the first entry of an empty leaf: nil
        obtain rfl : es = [] := hr.fits.resolve_left (by omega)
        have hkv : ∀ (g : Heap) (r : ElemRef) (rs : Stack), r.count g = .ok (0 : Int) →
            Cursor.keyValue g (r :: rs) = .ok (none, none, 0) := by
          intro g r rs hcount
          rw [Cursor.keyValue, back, pure_bind, hcount, ok_bind, if_pos (Or.inl rfl)]
          rfl
        rw [hkv _ _ _ (hr.count hL hL').1, hkv _ _ _ (hr.count hL hL').2]
        exact .ok rfl
      · obtain ⟨i, hi⟩ := Int.eq_ofNat_of_zero_le (by omega : 0 ≤ ref.index)
        rw [keyValue_of_stored hL hr.stored i hi,
          keyValue_of_stored hL' hr.stored' i (hr.index.trans hi)]
        exact .ok rfl

/-! ### Descending -/

theorem indexFits_zero (hu : u.BranchesNonempty) : IndexFits 0 u := by
  cases u with
  | leaf es => exact Or.inl (Int.le_refl 0)
  | branch n sep c => exact ⟨Int.le_refl 0, by have := hu.1; omega⟩

theorem indexFits_last (hu : u.BranchesNonempty) : IndexFits ((u.width : Int) - 1) u := by
  cases u with
  | leaf es =>
      rcases es with - | ⟨e, es⟩
      · exact Or.inr rfl
      · exact Or.inl (by simp only [MultiTree.width, List.length_cons]; omega)
  | branch n sep c =>
      have hn : 0 < n := hu.1
      exact ⟨by simp only [MultiTree.width]; omega, by simp only [MultiTree.width]; omega⟩

include hL hL' in
theorem first_lockstep (fuel : Nat) :
    ∀ {ref ref' : ElemRef} {rest rest' : Stack} {u : Tree},
      SameRef h b L h' b' L' u ref ref' → SameRefs h b L h' b' L' rest rest' →
      Lockstep (SameStack h b L h' b' L') (first_ h b fuel (ref :: rest))
        (first_ h' b' fuel (ref' :: rest')) := by
  induction fuel with
  | zero => exact fun _ _ => .error _
  | succ fuel ih =>
      intro ref ref' rest rest' u hr hrest
      cases u with
      | leaf es =>
          simp only [first_, back, pure_bind, isLeaf_of_stored_leaf hr.stored,
            isLeaf_of_stored_leaf hr.stored', ok_bind, if_true]
          exact .ok (.leaf hr hrest)
      | branch n sep c =>
          obtain ⟨i, id, id', s, s', hid, hid', hp, hp', hchild⟩ := hr.child hL hL'
          have hne : (c i).BranchesNonempty := hr.nonempty.2 i
          simp only [first_, back, pure_bind, isLeaf_of_stored_branch hr.stored,
            isLeaf_of_stored_branch hr.stored', ok_bind, Bool.false_eq_true, if_false, hid, hid',
            hp, hp']
          exact ih (hchild 0 (indexFits_zero hne)) (.cons ⟨_, hr⟩ hrest)

include hL hL' in
theorem last_lockstep (fuel : Nat) :
    ∀ {ref ref' : ElemRef} {rest rest' : Stack} {u : Tree},
      SameRef h b L h' b' L' u ref ref' → SameRefs h b L h' b' L' rest rest' →
      Lockstep (SameStack h b L h' b' L') (last_ h b fuel (ref :: rest))
        (last_ h' b' fuel (ref' :: rest')) := by
  induction fuel with
  | zero => exact fun _ _ => .error _
  | succ fuel ih =>
      intro ref ref' rest rest' u hr hrest
      cases u with
      | leaf es =>
          simp only [last_, back, pure_bind, isLeaf_of_stored_leaf hr.stored,
            isLeaf_of_stored_leaf hr.stored', ok_bind, if_true]
          exact .ok (.leaf hr hrest)
      | branch n sep c =>
          obtain ⟨i, id, id', s, s', hid, hid', hp, hp', hchild⟩ := hr.child hL hL'
          have hne : (c i).BranchesNonempty := hr.nonempty.2 i
          obtain ⟨hcount, hcount'⟩ := (hchild 0 (indexFits_zero hne)).count hL hL'
          simp only [last_, back, pure_bind, isLeaf_of_stored_branch hr.stored,
            isLeaf_of_stored_branch hr.stored', ok_bind, Bool.false_eq_true, if_false, hid, hid',
            hp, hp', hcount, hcount']
          exact ih (hchild _ (indexFits_last hne)) (.cons ⟨_, hr⟩ hrest)

/-! ### Stepping -/

include hL hL' in
/-- The inner loop of `next_` stops at the same height, or finds no room in
either stack. -/
theorem stepForward_lockstep (hs : SameRefs h b L h' b' L' stack stack') :
    Lockstep (Option.Rel fun s s' => s ≠ [] ∧ SameRefs h b L h' b' L' s s')
      (stepForward h stack) (stepForward h' stack') := by
  induction hs with
  | nil => exact .ok .none
  | @cons ref ref' rest rest' hr hrest ih =>
      obtain ⟨u, hr⟩ := hr
      obtain ⟨hcount, hcount'⟩ := hr.count hL hL'
      simp only [stepForward, hcount, hcount', ok_bind, hr.index]
      refine .ite (fun hlt => ?_) fun _ => ih
      refine .ok (.some ⟨List.cons_ne_nil _ _, .cons ⟨u, ?_⟩ hrest⟩)
      refine ⟨hr.stored, hr.stored', hr.resolved, rfl, ?_, hr.nonempty⟩
      have hfits := hr.fits
      cases u with
      | leaf es => exact hfits.imp_left fun h0 => by simp only; omega
      | branch n sep c =>
          simp only [MultiTree.width] at hlt
          exact ⟨by simp only; have := hfits.1; omega, by simp only; omega⟩

include hL hL' in
theorem nextLoop_lockstep (fuel : Nat) (restarts : Nat) :
    ∀ {stack stack' : Stack}, SameStack h b L h' b' L' stack stack' →
      Lockstep (fun r r' => SameStack h b L h' b' L' r.1 r'.1 ∧ r.2 = r'.2)
        (nextLoop h b fuel restarts stack) (nextLoop h' b' fuel restarts stack') := by
  induction restarts with
  | zero => exact fun _ => .error _
  | succ restarts ih =>
      intro stack stack' hs
      rw [nextLoop, nextLoop]
      refine .bind (stepForward_lockstep hL hL' hs.refs) fun o o' ho => ?_
      cases ho with
      | none => exact .ok ⟨hs, rfl⟩
      | @some s s' ho =>
          obtain ⟨hne, hrefs⟩ := ho
          rcases hrefs with - | ⟨⟨u, hr⟩, hrest⟩
          · exact absurd rfl hne
          refine .bind (first_lockstep hL hL' fuel hr hrest) fun s s' hs' => ?_
          cases hs' with
          | nil => exact .error _
          | @leaf es ref ref' rest rest' hleaf hrest' =>
              obtain ⟨hcount, hcount'⟩ := hleaf.count hL hL'
              simp only [back, pure_bind, hcount, hcount', ok_bind]
              -- an empty leaf: both go on from there
              refine .ite (fun _ => ih (.leaf hleaf hrest')) fun _ => ?_
              refine .bind (SameStack.keyValue hL hL' (.leaf hleaf hrest')) ?_
              rintro kv _ rfl
              exact .ok ⟨.leaf hleaf hrest', rfl⟩

include hL hL' in
theorem next_lockstep (fuel : Nat) (hs : SameStack h b L h' b' L' stack stack') :
    Lockstep (fun r r' => SameStack h b L h' b' L' r.1 r'.1 ∧ r.2 = r'.2)
      (next_ h b fuel stack) (next_ h' b' fuel stack') := by
  rw [next_, next_, hs.refs.length_eq]
  exact .ite (fun _ => nextLoop_lockstep hL hL' fuel fuel hs) fun _ => .error _

/-! ### The public functions -/

variable (ht : HasTree h b L t) (ht' : HasTree h' b' L' t) (hne : t.BranchesNonempty)

include ht ht' hne in
/-- The references to the root. -/
theorem sameRef_root :
    ∃ s s', b.pageNode b.root = .ok s ∧ b'.pageNode b'.root = .ok s' ∧
      ∀ j, IndexFits j t → SameRef h b L h' b' L' t ⟨s.1, s.2, j⟩ ⟨s'.1, s'.2, j⟩ := by
  obtain ⟨s, hp, hs⟩ := ht.root
  obtain ⟨s', hp', hs'⟩ := ht'.root
  exact ⟨s, s', hp, hp', fun j hj => ⟨hs, hs', ⟨_, hp⟩, rfl, hj, hne⟩⟩

/-- Related stacks and the same pair. -/
abbrev SameResult (h : Heap) (b : Bucket) (L : Layout) (h' : Heap) (b' : Bucket) (L' : Layout)
    (r r' : Stack × Pair) : Prop :=
  SameStack h b L h' b' L' r.1 r'.1 ∧ r.2 = r'.2

include hL hL' in
/-- What a call returns about the element of its stack. -/
theorem result_lockstep (hs : SameStack h b L h' b' L' stack stack') :
    Lockstep (SameResult h b L h' b' L')
      (Cursor.keyValue h stack >>= fun kv => pure (stack, toPair kv))
      (Cursor.keyValue h' stack' >>= fun kv => pure (stack', toPair kv)) := by
  refine .bind (hs.keyValue hL hL') ?_
  rintro kv _ rfl
  exact .ok ⟨hs, rfl⟩

include hL hL' ht ht' hne in
theorem first_call_lockstep (fuel : Nat) (stack stack' : Stack) :
    Lockstep (SameResult h b L h' b' L') (first h b fuel stack) (first h' b' fuel stack') := by
  obtain ⟨s, s', hp, hp', hroot⟩ := sameRef_root ht ht' hne
  simp only [first, assertOpen_ok ht, assertOpen_ok ht', hp, hp', ok_bind]
  refine .bind (first_lockstep hL hL' fuel (hroot 0 (indexFits_zero hne)) .nil) ?_
  intro stack stack' hs
  cases hs with
  | nil => exact .error _
  | @leaf es ref ref' rest rest' hleaf hrest =>
      obtain ⟨hcount, hcount'⟩ := hleaf.count hL hL'
      simp only [back, pure_bind, hcount, hcount', ok_bind]
      refine .ite (fun _ => ?_) fun _ => result_lockstep hL hL' (.leaf hleaf hrest)
      exact .bind (next_lockstep hL hL' fuel (.leaf hleaf hrest)) fun r r' hr =>
        result_lockstep hL hL' hr.1

include hL hL' ht ht' hne in
theorem last_call_lockstep (fuel : Nat) (stack stack' : Stack) :
    Lockstep (SameResult h b L h' b' L') (last h b fuel stack) (last h' b' fuel stack') := by
  obtain ⟨s, s', hp, hp', hroot⟩ := sameRef_root ht ht' hne
  obtain ⟨hcount, hcount'⟩ := (hroot 0 (indexFits_zero hne)).count hL hL'
  simp only [last, assertOpen_ok ht, assertOpen_ok ht', hp, hp', hcount, hcount', ok_bind]
  exact .bind (last_lockstep hL hL' fuel (hroot _ (indexFits_last hne)) .nil) fun _ _ =>
    result_lockstep hL hL'

/-- The loop of `prev` drops as many references from both. -/
theorem stepBack_length (hs : SameRefs h b L h' b' L' stack stack') :
    (stepBack stack).length = (stepBack stack').length := by
  induction hs with
  | nil => rfl
  | @cons ref ref' rest rest' hr hrest ih =>
      obtain ⟨u, hr⟩ := hr
      simp only [stepBack, hr.index]
      split
      · simp only [List.length_cons, hrest.length_eq]
      · exact ih

include hL hL' ht ht' hne in
/-- **One call.** -/
theorem call_lockstep (fuel : Nat) {c : Call} (hc : ∀ key vec, c ≠ .seek key vec)
    (hs : SameStack h b L h' b' L' stack stack') :
    Lockstep (SameResult h b L h' b' L') (call h b fuel stack c) (call h' b' fuel stack' c) := by
  cases c with
  | first => exact first_call_lockstep hL hL' ht ht' hne fuel stack stack'
  | last => exact last_call_lockstep hL hL' ht ht' hne fuel stack stack'
  | next =>
      simp only [call, next, assertOpen_ok ht, assertOpen_ok ht', ok_bind]
      refine .bind (next_lockstep hL hL' fuel hs) fun r r' hr => .ok ⟨hr.1, ?_⟩
      exact congrArg toPair hr.2
  | prev =>
      simp only [call, prev, assertOpen_ok ht, assertOpen_ok ht', ok_bind,
        stepBack_length hs.refs]
      refine .ite (fun hnil => ?_) fun _ => ?_
      · have hlen := (stepBack_length hs.refs).trans hnil
        rw [List.length_eq_zero_iff.mp hnil, List.length_eq_zero_iff.mp hlen]
        exact .ok ⟨.nil, rfl⟩
      · exact .bind (last_call_lockstep hL hL' ht ht' hne fuel _ _) fun r r' hr =>
          result_lockstep hL hL' hr.1
  | seek key vec => exact absurd rfl (hc key vec)
  | keyValue => exact result_lockstep hL hL' hs

/-! ### Any calls -/

/-- The stack after the calls, and the pairs they have returned. -/
def observe (h : Heap) (b : Bucket) (fuel : Nat) :
    List Call → Stack → Except Fault (Stack × List Pair)
  | [], stack => pure (stack, [])
  | c :: cs, stack => do
      let (stack, pair) ← call h b fuel stack c
      let (stack, pairs) ← observe h b fuel cs stack
      pure (stack, pair :: pairs)

/-- Calls other than `seek`, which copies pages to search them. -/
def NoSeek (cs : List Call) : Prop := ∀ c ∈ cs, ∀ key vec, c ≠ .seek key vec

include hL hL' ht ht' hne in
theorem observe_lockstep (fuel : Nat) {cs : List Call} :
    ∀ {stack stack' : Stack}, NoSeek cs → SameStack h b L h' b' L' stack stack' →
      Lockstep (fun r r' => SameStack h b L h' b' L' r.1 r'.1 ∧ r.2 = r'.2)
        (observe h b fuel cs stack) (observe h' b' fuel cs stack') := by
  induction cs with
  | nil => exact fun _ hs => .ok ⟨hs, rfl⟩
  | cons c cs ih =>
      intro stack stack' hcs hs
      rw [NoSeek, List.forall_mem_cons] at hcs
      rw [observe, observe]
      refine .bind (call_lockstep hL hL' ht ht' hne fuel hcs.1 hs) ?_
      rintro ⟨s, pair⟩ ⟨s', _⟩ ⟨hs, rfl⟩
      refine .bind (ih hcs.2 hs) ?_
      rintro ⟨s, pairs⟩ ⟨s', _⟩ ⟨hs, rfl⟩
      exact .ok ⟨hs, rfl⟩

include hL hL' ht ht' hne in
/-- **A cursor does not see how a tree is held.**  On two buckets that store one
tree in whatever mixture of pages and nodes, the same calls return the same
pairs or end in the same fault, with any amount of fuel. -/
theorem observe_agrees (fuel : Nat) {cs : List Call} (hcs : NoSeek cs) :
    Prod.snd <$> observe h b fuel cs [] = Prod.snd <$> observe h' b' fuel cs [] :=
  (observe_lockstep hL hL' ht ht' hne fuel hcs .nil).map_eq fun _ _ h => h.2

end

/-! ### Materialising a page -/

section

variable {n nd : Node} {p : Nat} {pid : Pgid} {q : NodePtr} {fuel : Nat}

/-- **What `read` makes of a leaf page**: a leaf with the entries of the page. -/
theorem read_entries (hL : L.Faithful) {es : List Entry}
    (hs : HoldsEntries h L (some p, none) es) (hread : n.read h.mem p = .ok nd) :
    nd.isLeaf_ = true ∧ nd.inodes.map INode.entry = es := by
  obtain ⟨hflags, hcount, hallows, helem⟩ := hs
  rw [Node.read, decide_eq_true hflags] at hread
  obtain ⟨inodes, hloop, hread⟩ := ok_of_bind hread
  obtain ⟨hlen, hget⟩ := mapM_range_inv hloop
  have hentries : inodes.map INode.entry = es := by
    refine List.ext_getElem (by rw [List.length_map, hlen, hcount]) fun i hi hi' => ?_
    rw [List.length_map] at hi
    have hinode := hget i _ (List.getElem?_eq_getElem hi)
    -- element `i` of the page is in the slot the layout gives it
    have hslot : (toUInt16 (i : Nat)).toNat = L.slot i := by
      rw [toNat_toUInt16, (hL _ hallows).2 i hi']
    have hentry := helem i _ (List.getElem?_eq_getElem hi')
    rw [← hslot] at hentry
    simp only [Node.readInode, if_true] at hinode
    split at hinode
    · cases hinode
    · rw [List.getElem_map, ← hentry, ← Except.ok.inj hinode]
      rfl
  rcases inodes with - | ⟨x, xs⟩
  · cases hread
    exact ⟨rfl, hentries⟩
  · simp only at hread
    split at hread
    · cases hread
      exact ⟨rfl, hentries⟩
    · cases hread

variable (hL : L.Faithful) (hin : b.inline_ = false)
  (hpage : b.pageNode pid = .ok (some p, none))
  (hleaf : Page.flags h.mem p &&& LeafPageFlag ≠ 0) (hread : n.read h.mem p = .ok nd)
  (hfresh : ∀ id, b.nodes id ≠ some q)

include hL hin hpage hleaf hread hfresh in
/-- Where `id` led before and after. -/
theorem resolves_withNode {id : Pgid} {s : Bucket.PageNode} (hp : b.pageNode id = .ok s)
    (hstay : Stored h b L u s → s.2 ≠ some q →
      Stored (h.setNode q nd) (b.withNode pid q) L u s)
    (hs : Stored h b L u s) :
    ∃ s', (b.withNode pid q).pageNode id = .ok s' ∧
      Stored (h.setNode q nd) (b.withNode pid q) L u s' := by
  rw [Bucket.pageNode_withNode hin]
  by_cases hid : id = pid
  · subst hid
    rw [hp] at hpage
    cases hpage
    refine ⟨(none, some q), if_pos rfl, ?_⟩
    cases u with
    | leaf es =>
        obtain ⟨hisLeaf, hentries⟩ := read_entries hL hs hread
        exact ⟨by rw [Heap.setNode_node_self, hisLeaf], by rw [Heap.setNode_node_self, hentries]⟩
    | branch k sep c => exact hs.elim fun _ hc => absurd hc.1.1 hleaf
  · exact ⟨s, by rw [if_neg hid, hp], hstay hs (Bucket.pageNode_fresh hin hfresh hp)⟩

include hL hin hpage hleaf hread hfresh in
/-- What is stored stays stored. -/
theorem stored_withNode (u : Tree) :
    ∀ {s : Bucket.PageNode}, Stored h b L u s → s.2 ≠ some q →
      Stored (h.setNode q nd) (b.withNode pid q) L u s := by
  induction u with
  | leaf es =>
      rintro ⟨p', m⟩ hs hne
      rcases m with - | m
      · cases p' <;> exact hs
      · have hm : m ≠ q := fun heq => hne (congrArg some heq)
        rw [Stored, HoldsEntries, Heap.setNode_node_of_ne hm]
        exact hs
  | branch k sep c ih =>
      rintro ⟨p', m⟩ ⟨ids, hc, hchild⟩ hne
      refine ⟨ids, ?_, fun i => ?_⟩
      · rcases m with - | m
        · cases p' <;> exact hc
        · have hm : m ≠ q := fun heq => hne (congrArg some heq)
          rw [HoldsChildren, Heap.setNode_node_of_ne hm]
          exact hc
      · obtain ⟨s', hp, hs'⟩ := hchild i
        exact resolves_withNode hL hin hpage hleaf hread hfresh hp (ih i) hs'

include hL hin hpage hleaf hread hfresh in
theorem hasTree_withNode (ht : HasTree h b L t) :
    HasTree (h.setNode q nd) (b.withNode pid q) L t := by
  obtain ⟨s, hp, hs⟩ := ht.root
  exact ⟨ht.isOpen, resolves_withNode hL hin hpage hleaf hread hfresh hp
    (stored_withNode hL hin hpage hleaf hread hfresh t) hs⟩

include hL hin hpage hleaf hread hfresh in
/-- A stack from before is a stack afterwards. -/
theorem sameStack_withNode (hs : SameStack h b L h b L stack stack) :
    SameStack h b L (h.setNode q nd) (b.withNode pid q) L stack stack := by
  have href : ∀ {u : Tree} {r : ElemRef}, SameRef h b L h b L u r r →
      SameRef h b L (h.setNode q nd) (b.withNode pid q) L u r r := by
    intro u r hr
    obtain ⟨id, hp⟩ := hr.resolved
    exact ⟨hr.stored, stored_withNode hL hin hpage hleaf hread hfresh u hr.stored'
      (Bucket.pageNode_fresh hin hfresh hp), hr.resolved, rfl, hr.fits, hr.nonempty⟩
  cases hs with
  | nil => exact .nil
  | leaf hr hrest =>
      refine .leaf (href hr) ?_
      rw [SameRefs, List.forall₂_same] at hrest ⊢
      exact fun r hr => (hrest r hr).imp fun _ h => href h

include hL hin hpage hleaf hread hfresh in
/-- **Materialising a leaf page is invisible.**  If `Node::read` of a leaf page
returns and the page id leads to the node from then on, a cursor returns from
its old stack what it would have returned. -/
theorem materialise_invisible (ht : HasTree h b L t) (hne : t.BranchesNonempty)
    {cs₁ cs₂ : List Call} (hcs₁ : NoSeek cs₁) (hcs₂ : NoSeek cs₂) {pairs : List Pair}
    (hrun : observe h b fuel cs₁ [] = .ok (stack, pairs)) :
    Prod.snd <$> observe (h.setNode q nd) (b.withNode pid q) fuel cs₂ stack
      = Prod.snd <$> observe h b fuel cs₂ stack := by
  have ht' := hasTree_withNode hL hin hpage hleaf hread hfresh ht
  -- the first calls in lockstep with themselves
  have hself := observe_lockstep hL hL ht ht hne fuel hcs₁ .nil
  rw [hrun] at hself
  rcases hself with ⟨hs, -⟩ | _
  have hs' := sameStack_withNode hL hin hpage hleaf hread hfresh hs
  exact ((observe_lockstep hL hL ht ht' hne fuel hcs₂ hs').map_eq fun _ _ h => h.2).symm

end

/-! ### Samples -/

/-- The leaf page of the sample can be read. -/
theorem read_samplePage : ∃ nd, sampleLeaf.read (sampleHeap []).mem 4096 = .ok nd :=
  ⟨_, Node.read_of_image sampleLeaf (by decide) (by decide) (by decide)
    (holdsImage_write _ _ _ _) (by decide) (by decide)⟩

/-- Node 3 is not in use. -/
theorem fresh_sample (id : Pgid) : sampleBucket.nodes id ≠ some 3 := by
  show (if id = 2 then some 1 else if id = 4 then some 2 else none) ≠ some 3
  split
  · decide
  · split <;> decide

theorem noSeek_walk : NoSeek [.first, .next, .prev, .last, .keyValue] := by
  simp [NoSeek]

/-- The leaf as a page and as a node. -/
theorem observe_agrees_sample :
    ∃ nd, sampleLeaf.read (sampleHeap []).mem 4096 = .ok nd ∧
      Prod.snd <$> observe (sampleHeap []) sampleBucket 20
            [.first, .next, .prev, .last, .keyValue] []
        = Prod.snd <$> observe ((sampleHeap []).setNode 3 nd) (sampleBucket.withNode 3 3) 20
            [.first, .next, .prev, .last, .keyValue] [] := by
  obtain ⟨nd, hread⟩ := read_samplePage
  have hpage : sampleBucket.pageNode 3 = .ok (some 4096, none) := rfl
  have ht := hasTree_withNode fileLayout_faithful (by decide) hpage (by decide) hread fresh_sample
    (hasTree_sample [])
  exact ⟨nd, hread, observe_agrees fileLayout_faithful fileLayout_faithful (hasTree_sample []) ht
    (branchesNonempty_sample []) 20 noSeek_walk⟩

/-- The leaf becomes a node while the cursor is on it. -/
theorem materialise_sample :
    ∃ nd stack pairs, sampleLeaf.read (sampleHeap []).mem 4096 = .ok nd ∧
      observe (sampleHeap []) sampleBucket 20 [.first] [] = .ok (stack, pairs) ∧
      Prod.snd <$> observe ((sampleHeap []).setNode 3 nd) (sampleBucket.withNode 3 3) 20
          [.first, .next, .prev, .last, .keyValue] stack
        = Prod.snd <$> observe (sampleHeap []) sampleBucket 20
            [.first, .next, .prev, .last, .keyValue] stack := by
  obtain ⟨nd, hread⟩ := read_samplePage
  have hfirst : observe (sampleHeap []) sampleBucket 20 [.first] []
      = .ok ([⟨some 4096, none, 0⟩, ⟨none, some 1, 0⟩], [(some [98], none)]) := by
    decide +kernel
  have hpage : sampleBucket.pageNode 3 = .ok (some 4096, none) := rfl
  have hcs : NoSeek [.first] := by simp [NoSeek]
  exact ⟨nd, _, _, hread, hfirst, materialise_invisible fileLayout_faithful (by decide) hpage
    (by decide) hread fresh_sample (hasTree_sample []) (branchesNonempty_sample []) hcs noSeek_walk
    hfirst⟩

end Cursor

end BoltCpp
