/-
BoltCpp/CursorTree.lean

The cursor on the tree: stacks are paths.

`Linked` says that a stack refers, reference by reference, to the frames of a
position in the tree.  The loops of the cursor then act on frames: `first_`
is `leftmost`, `last_` is `rightmost`, the inner loop of `next_` is `advance`
and the loop of `prev` is `retreat`.  `nextLoop_spec` adds the restarts over
empty leaves; the induction there is on the leaves right of the position.
-/
import BoltCpp.BucketTree

namespace BoltCpp

open ByteMem MultiTree

abbrev TreeFrame := MultiTree.Frame Slice Entry

/-- The reference points into the tree of the frame, at its index. -/
structure LinkedRef (h : Heap) (b : Bucket) (L : Layout) (ref : ElemRef) (f : TreeFrame) :
    Prop where
  stored : Stored h b L f.1 (ref.page, ref.node)
  index : ref.index = (f.2 : Nat)

/-- The reference points at the last index of the tree, `-1` in an empty leaf. -/
structure LastRef (h : Heap) (b : Bucket) (L : Layout) (ref : ElemRef) (u : Tree) : Prop where
  stored : Stored h b L u (ref.page, ref.node)
  index : ref.index = (u.width : Int) - 1

/-- The stack refers to the frames. -/
abbrev Linked (h : Heap) (b : Bucket) (L : Layout) (stack : Cursor.Stack)
    (fs : List TreeFrame) : Prop :=
  List.Forall₂ (LinkedRef h b L) stack fs

/-- The cursor is at index `i` of the leaf `es` of the tree `t`, below the
frames `fs`. -/
structure At (h : Heap) (b : Bucket) (L : Layout) (t : Tree) (stack : Cursor.Stack)
    (es : List Entry) (i : Nat) (fs : List TreeFrame) : Prop where
  linked : Linked h b L stack ((.leaf es, i) :: fs)
  path : Path t ((.leaf es, i) :: fs)

section

variable {h : Heap} {b : Bucket} {L : Layout} {ref : ElemRef} {rest : Cursor.Stack}
  {fs : List TreeFrame}

theorem At.length_pos {t : Tree} {stack : Cursor.Stack} {es : List Entry} {i : Nat}
    (hat : At h b L t stack es i fs) : stack.length > 0 := by
  rw [hat.linked.length_eq]
  exact Nat.succ_pos _

/-! ### Descending -/

theorem LastRef.linked {u : Tree} (hr : LastRef h b L ref u) (hpos : 0 < u.width) :
    LinkedRef h b L ref (u, u.width - 1) := by
  refine ⟨hr.stored, ?_⟩
  have hlast : ((u.width - 1 : Nat) : Int) = (u.width : Int) - 1 := by omega
  rw [hr.index, hlast]

theorem first_of_leaf {es : List Entry} {i : Nat} (hr : LinkedRef h b L ref (.leaf es, i))
    (fuel : Nat) : Cursor.first_ h b (fuel + 1) (ref :: rest) = .ok (ref :: rest) := by
  simp only [Cursor.first_, Cursor.back, pure_bind, isLeaf_of_stored_leaf hr.stored]
  rfl

theorem last_of_leaf {es : List Entry} (hs : Stored h b L (.leaf es) (ref.page, ref.node))
    (fuel : Nat) : Cursor.last_ h b (fuel + 1) (ref :: rest) = .ok (ref :: rest) := by
  simp only [Cursor.last_, Cursor.back, pure_bind, isLeaf_of_stored_leaf hs]
  rfl

variable (hL : L.Faithful)

include hL in
/-- One round of `first_` on a branch. -/
theorem first_of_branch {n : Nat} {sep : Fin n → Slice} {child : Fin n → Tree} {i : Fin n}
    (hr : LinkedRef h b L ref (.branch n sep child, (i : Nat))) (rest : Cursor.Stack)
    (fuel : Nat) :
    ∃ ref', LinkedRef h b L ref' (child i, 0) ∧
      Cursor.first_ h b (fuel + 1) (ref :: rest)
        = Cursor.first_ h b fuel (ref' :: ref :: rest) := by
  obtain ⟨id, ⟨p, n⟩, hid, hs, hst⟩ := childId_of_stored hL hr.stored i hr.index
  refine ⟨⟨p, n, 0⟩, ⟨hst, rfl⟩, ?_⟩
  simp only [Cursor.first_, Cursor.back, pure_bind, isLeaf_of_stored_branch hr.stored, ok_bind,
    Bool.false_eq_true, if_false, hid, hs]

include hL in
/-- One round of `last_` on a branch. -/
theorem last_of_branch {n : Nat} {sep : Fin n → Slice} {child : Fin n → Tree} {i : Fin n}
    (hr : LinkedRef h b L ref (.branch n sep child, (i : Nat))) (rest : Cursor.Stack)
    (fuel : Nat) :
    ∃ ref', LastRef h b L ref' (child i) ∧
      Cursor.last_ h b (fuel + 1) (ref :: rest)
        = Cursor.last_ h b fuel (ref' :: ref :: rest) := by
  obtain ⟨id, ⟨p, n⟩, hid, hs, hst⟩ := childId_of_stored hL hr.stored i hr.index
  have hcount : (⟨p, n, 0⟩ : ElemRef).count h = .ok ((child i).width : Int) :=
    count_of_stored hL hst
  refine ⟨⟨p, n, (child i).width - 1⟩, ⟨hst, rfl⟩, ?_⟩
  simp only [Cursor.last_, Cursor.back, pure_bind, isLeaf_of_stored_branch hr.stored, ok_bind,
    Bool.false_eq_true, if_false, hid, hs, hcount]

include hL in
/-- **`first_` descends to the leftmost leaf.** -/
theorem first_spec (t : Tree) :
    ∀ {ref : ElemRef} {rest : Cursor.Stack} {fs : List TreeFrame} {fuel : Nat},
      t.BranchesNonempty → LinkedRef h b L ref (t, 0) → Linked h b L rest fs → t.size ≤ fuel →
      ∃ stack, Cursor.first_ h b fuel (ref :: rest) = .ok stack ∧
        Linked h b L stack (leftmost t fs) := by
  induction t with
  | leaf es =>
      intro ref rest fs fuel _ hr hrest hfuel
      obtain ⟨k, rfl⟩ : ∃ k, fuel = k + 1 := ⟨fuel - 1, by simp [MultiTree.size] at hfuel; omega⟩
      exact ⟨_, first_of_leaf hr k, .cons hr hrest⟩
  | branch n sep child ih =>
      intro ref rest fs fuel hne hr hrest hfuel
      obtain ⟨hn, hc⟩ := hne
      have hlt := size_child_lt n sep child ⟨0, hn⟩
      obtain ⟨k, rfl⟩ : ∃ k, fuel = k + 1 := ⟨fuel - 1, by omega⟩
      -- one round goes to child 0, with fuel for the smaller tree left
      have hk : (child ⟨0, hn⟩).size ≤ k := by omega
      obtain ⟨ref', hr', heq⟩ := first_of_branch (i := ⟨0, hn⟩) hL hr rest k
      obtain ⟨stack, hstack, hlinked⟩ := ih ⟨0, hn⟩ (hc _) hr' (.cons hr hrest) hk
      refine ⟨stack, by rw [heq, hstack], ?_⟩
      rw [leftmost, dif_pos hn]
      exact hlinked

include hL in
/-- **`last_` descends to the rightmost leaf**, and to its last entry if there
is one. -/
theorem last_spec (t : Tree) :
    ∀ {ref : ElemRef} {rest : Cursor.Stack} {fs : List TreeFrame} {fuel : Nat},
      t.BranchesNonempty → LastRef h b L ref t → Linked h b L rest fs → t.size ≤ fuel →
      ∃ ref' rest' es fs', Cursor.last_ h b fuel (ref :: rest) = .ok (ref' :: rest') ∧
        rightmost t fs = (.leaf es, es.length - 1) :: fs' ∧ LastRef h b L ref' (.leaf es) ∧
        Linked h b L rest' fs' := by
  induction t with
  | leaf es =>
      intro ref rest fs fuel _ hr hrest hfuel
      obtain ⟨k, rfl⟩ : ∃ k, fuel = k + 1 := ⟨fuel - 1, by simp [MultiTree.size] at hfuel; omega⟩
      exact ⟨ref, rest, es, fs, last_of_leaf hr.stored k, rfl, hr, hrest⟩
  | branch n sep child ih =>
      intro ref rest fs fuel hne hr hrest hfuel
      obtain ⟨hn, hc⟩ := hne
      have hn' : n - 1 < n := by omega
      have hlt := size_child_lt n sep child ⟨n - 1, hn'⟩
      obtain ⟨k, rfl⟩ : ∃ k, fuel = k + 1 := ⟨fuel - 1, by omega⟩
      -- a branch has a last child, and one round goes there
      have hlinked : LinkedRef h b L ref (.branch n sep child, n - 1) := hr.linked hn
      have hk : (child ⟨n - 1, hn'⟩).size ≤ k := by omega
      obtain ⟨ref', hr', heq⟩ := last_of_branch (i := ⟨n - 1, hn'⟩) hL hlinked rest k
      obtain ⟨ref'', rest'', es, fs', hrun, hright, hlast, hrest''⟩ :=
        ih ⟨n - 1, hn'⟩ (hc _) hr' (.cons hlinked hrest) hk
      refine ⟨ref'', rest'', es, fs', by rw [heq, hrun], ?_, hlast, hrest''⟩
      rw [rightmost, dif_pos hn]
      exact hright

/-! ### Stepping -/

include hL in
/-- The inner loop of `next_` is `advance`. -/
theorem stepForward_spec {stack : Cursor.Stack} (hl : Linked h b L stack fs) :
    (advance fs = none → Cursor.stepForward h stack = .ok none) ∧
      ∀ fs', advance fs = some fs' →
        ∃ stack', Cursor.stepForward h stack = .ok (some stack') ∧ Linked h b L stack' fs' := by
  induction hl with
  | nil => exact ⟨fun _ => rfl, fun _ h => by cases h⟩
  | @cons ref f rest fs hr hrest ih =>
      obtain ⟨t, i⟩ := f
      have hcount : ref.count h = .ok (t.width : Int) := count_of_stored hL hr.stored
      have hidx : ref.index = (i : Nat) := hr.index
      simp only [Cursor.stepForward, hcount, hidx, advance]
      by_cases hi : i + 1 < t.width
      · -- this reference has a next index: the loop breaks here
        have hi' : (i : Int) < (t.width : Int) - 1 := by omega
        simp only [if_pos hi]
        refine ⟨fun h => (Option.some_ne_none _ h).elim, fun fs' hfs' => ?_⟩
        obtain rfl := Option.some.inj hfs'
        refine ⟨_, if_pos hi', .cons ⟨hr.stored, ?_⟩ hrest⟩
        simp
      · -- it is exhausted: the loop goes on to the reference below
        have hi' : ¬ (i : Int) < (t.width : Int) - 1 := by omega
        simp only [if_neg hi]
        simp only [bind, Except.bind, if_neg hi']
        exact ih

/-- The loop of `prev` is `retreat`. -/
theorem stepBack_linked {stack : Cursor.Stack} (hl : Linked h b L stack fs) :
    Linked h b L (Cursor.stepBack stack) (retreat fs) := by
  induction hl with
  | nil => exact .nil
  | @cons ref f rest fs hr hrest ih =>
      obtain ⟨t, i⟩ := f
      have hidx : ref.index = (i : Nat) := hr.index
      rw [Cursor.stepBack, retreat]
      by_cases hi : 0 < i
      · rw [if_pos (by omega), if_pos hi]
        refine .cons ⟨hr.stored, ?_⟩ hrest
        simp only [hidx]
        omega
      · rw [if_neg (by omega), if_neg hi]
        exact ih

/-! ### `next_` -/

/-- How a call of `next_` from a position ends.  There may be no entry to the
right; the cursor then stays where it is, or stops in an empty leaf. -/
structure Stepped (h : Heap) (b : Bucket) (L : Layout) (t : Tree) (fs : List TreeFrame)
    (stack' : Cursor.Stack) (kv : KeyValue) (es' : List Entry) (i' : Nat)
    (fs' : List TreeFrame) : Prop where
  at' : At h b L t stack' es' i' fs'
  result : kv = keyValueOf (after fs).head?
  after : after ((.leaf es', i') :: fs') = (after fs).tail
  entry : ∀ e, (MultiTree.after fs).head? = some e → es'[i']? = some e
  stays : MultiTree.after fs = [] → (.leaf es', i') :: fs' = fs ∨ es' = []

/-- A step from an empty leaf serves for a step that arrived there. -/
theorem Stepped.restart {t : Tree} {fs₂ : List TreeFrame} {stack' : Cursor.Stack}
    {kv : KeyValue} {es' : List Entry} {i' : Nat} {fs' : List TreeFrame}
    (hs : Stepped h b L t ((.leaf [], 0) :: fs₂) stack' kv es' i' fs')
    (hafter : MultiTree.after fs = MultiTree.after ((.leaf [], 0) :: fs₂)) :
    Stepped h b L t fs stack' kv es' i' fs' := by
  refine ⟨hs.at', by rw [hafter]; exact hs.result, by rw [hafter]; exact hs.after,
    by rw [hafter]; exact hs.entry, fun hnil => ?_⟩
  rw [hafter] at hnil
  rcases hs.stays hnil with heq | hempty
  · cases heq
    exact Or.inr rfl
  · exact Or.inr hempty

/-- From a position without an entry, the entry arrived at is the next one,
or none. -/
theorem Stepped.current {t : Tree} {es : List Entry} {i : Nat} {stack' : Cursor.Stack}
    {kv : KeyValue} {es' : List Entry} {i' : Nat} {fs' : List TreeFrame}
    (hs : Stepped h b L t ((.leaf es, i) :: fs) stack' kv es' i' fs') (hi : es[i]? = none) :
    es'[i']? = (MultiTree.after ((.leaf es, i) :: fs)).head? := by
  rcases hhead : (MultiTree.after ((.leaf es, i) :: fs)).head? with - | e
  · rcases hs.stays (List.head?_eq_none_iff.mp hhead) with heq | hempty
    · cases heq
      exact hi
    · rw [hempty]
      rfl
  · exact hs.entry e hhead

include hL in
theorem keyValue_of_at {t : Tree} {stack : Cursor.Stack} {es : List Entry} {i : Nat}
    (hat : At h b L t stack es i fs) :
    Cursor.keyValue h stack = .ok (keyValueOf es[i]?) := by
  rcases hat.linked with - | ⟨hr, hrest⟩
  exact keyValue_of_stored hL hr.stored i hr.index

include hL in
/-- At the last index of a leaf. -/
theorem keyValue_of_last {es : List Entry} (hr : LastRef h b L ref (.leaf es)) :
    Cursor.keyValue h (ref :: rest) = .ok (keyValueOf es.getLast?) := by
  rcases es with - | ⟨e, es⟩
  · have hcount : ref.count h = .ok (0 : Int) := count_of_stored hL hr.stored
    simp only [Cursor.keyValue, Cursor.back, pure_bind, hcount, ok_bind, true_or, if_true]
    rfl
  · have hlinked := hr.linked (Nat.succ_pos es.length)
    rw [List.getLast?_eq_getElem?]
    exact keyValue_of_stored hL hr.stored _ hlinked.index

include hL in
/-- A step inside the leaf. -/
theorem nextLoop_in_leaf {t : Tree} {stack : Cursor.Stack} {es : List Entry} {i : Nat}
    (hat : At h b L t stack es i fs) (hi : i + 1 < es.length) (fuel restarts : Nat) :
    ∃ stack' kv, Cursor.nextLoop h b (fuel + 1) (restarts + 1) stack = .ok (stack', kv) ∧
      Stepped h b L t ((.leaf es, i) :: fs) stack' kv es (i + 1) fs := by
  have hadvance : advance ((.leaf es, i) :: fs) = some ((.leaf es, i + 1) :: fs) :=
    if_pos (by simpa [width] using hi)
  obtain ⟨stack', hstep, hl⟩ := (stepForward_spec hL hat.linked).2 _ hadvance
  rcases hl with - | ⟨hr, hrest⟩
  rename_i ref rest
  have hcount : ref.count h = .ok (es.length : Int) := count_of_stored hL hr.stored
  have hne : ¬ (es.length : Int) = 0 := by omega
  have hafter : after ((.leaf es, i) :: fs) = es[i + 1] :: after ((.leaf es, i + 1) :: fs) := by
    rw [after, List.drop_eq_getElem_cons hi]
    rfl
  have hget : es[i + 1]? = some es[i + 1] := List.getElem?_eq_getElem hi
  refine ⟨ref :: rest, keyValueOf es[i + 1]?, ?_, ⟨⟨.cons hr hrest, hat.path.reindex _⟩, ?_, ?_,
    ?_, ?_⟩⟩
  · simp only [Cursor.nextLoop, hstep, ok_bind, first_of_leaf hr, Cursor.back, pure_bind, hcount,
      if_neg hne, keyValue_of_stored hL hr.stored (i + 1) hr.index]
    rfl
  · rw [hafter, hget, List.head?_cons]
  · rw [hafter, List.tail_cons]
  · intro e he
    rw [hafter, List.head?_cons] at he
    rw [hget, he]
  · intro hnil
    rw [hafter] at hnil
    cases hnil

include hL in
/-- A step to another leaf, before it is known whether that leaf is empty. -/
theorem step_to_leaf {t : Tree} (ht : t.BranchesNonempty) {stack : Cursor.Stack}
    {es : List Entry} {i : Nat} (hat : At h b L t stack es i fs) {fs₁ : List TreeFrame}
    (hadvance : advance ((.leaf es, i) :: fs) = some fs₁) (hi : ¬ i + 1 < es.length) {fuel : Nat}
    (hfuel : t.size < fuel) :
    ∃ stack₁ stack₂ es₂ fs₂, Cursor.stepForward h stack = .ok (some stack₁) ∧
      Cursor.first_ h b fuel stack₁ = .ok stack₂ ∧ At h b L t stack₂ es₂ 0 fs₂ ∧
      leavesAfter fs = es₂ :: leavesAfter fs₂ := by
  have hadvance' : advance fs = some fs₁ := by
    rwa [advance, if_neg (by simpa [width] using hi)] at hadvance
  -- some branch below steps to child `j`, and `first_` descends from there
  obtain ⟨n, sep, c, j, below, rfl, hpath, hright⟩ := advance_some hat.path hadvance'
  obtain ⟨stack₁, hstep, hl⟩ := (stepForward_spec hL hat.linked).2 _ hadvance
  rcases hl with - | ⟨hr, hrest⟩
  obtain ⟨k, rfl⟩ : ∃ k, fuel = k + 1 := ⟨fuel - 1, by omega⟩
  have hsize : (c j).size ≤ k := by
    have := hpath.size_le
    have := size_child_lt n sep c j
    omega
  have hc : (c j).BranchesNonempty := (ht.of_path hpath).2 j
  obtain ⟨ref', hr', hround⟩ := first_of_branch hL hr _ k
  obtain ⟨stack₂, hfirst, hl₂⟩ := first_spec hL (c j) hc hr' (.cons hr hrest) hsize
  obtain ⟨es₂, ls, fs₂, hleft, hls, hafter, -, hp₂⟩ :=
    leftmost_spec (c j) _ hc (.child hpath j.isLt 0)
  rw [hleft] at hl₂
  refine ⟨_, stack₂, es₂, fs₂, hstep, hround.trans hfirst, ⟨hl₂, hp₂⟩, ?_⟩
  rw [hright, hls, hafter, List.cons_append]

include hL in
/-- **`next_` moves to the next entry, over any number of empty leaves.** -/
theorem nextLoop_spec {t : Tree} (ht : t.BranchesNonempty) {fuel : Nat} (hfuel : t.size < fuel) :
    ∀ (restarts : Nat) {stack : Cursor.Stack} {es : List Entry} {i : Nat}
      {fs : List TreeFrame}, At h b L t stack es i fs →
      (leavesAfter fs).length < restarts →
      ∃ stack' kv es' i' fs', Cursor.nextLoop h b fuel restarts stack = .ok (stack', kv) ∧
        Stepped h b L t ((.leaf es, i) :: fs) stack' kv es' i' fs' := by
  obtain ⟨k, rfl⟩ : ∃ k, fuel = k + 1 := ⟨fuel - 1, by omega⟩
  intro restarts
  induction restarts with
  | zero => intro stack es i fs _ hr; omega
  | succ restarts ih =>
      intro stack es i fs hat hr
      by_cases hi : i + 1 < es.length
      · obtain ⟨stack', kv, hrun, hstep⟩ := nextLoop_in_leaf hL hat hi k restarts
        exact ⟨stack', kv, es, i + 1, fs, hrun, hstep⟩
      have hafter : after ((.leaf es, i) :: fs) = (leavesAfter fs).flatten := by
        rw [after, List.drop_eq_nil_of_le (by omega), List.nil_append]
      rcases hadvance : advance ((.leaf es, i) :: fs) with - | fs₁
      · -- nothing to the right: the stack is not touched
        have hleaves : leavesAfter fs = [] := by
          have := leavesAfter_of_advance_none hadvance
          simpa using this
        rw [hleaves, List.flatten_nil] at hafter
        refine ⟨stack, (none, none, 0), es, i, fs, ?_, ⟨hat, ?_, ?_, ?_, ?_⟩⟩
        · simp only [Cursor.nextLoop, (stepForward_spec hL hat.linked).1 hadvance, ok_bind]
          rfl
        · rw [hafter]
          rfl
        · rw [hafter]
          rfl
        · intro e he
          rw [hafter] at he
          cases he
        · exact fun _ => Or.inl rfl
      · obtain ⟨stack₁, stack₂, es₂, fs₂, hstep, hfirst, hat₂, hleaves⟩ :=
          step_to_leaf hL ht hat hadvance hi hfuel
        rw [hleaves, List.flatten_cons] at hafter
        rcases hl₂ : hat₂.linked with - | ⟨hr₂, hrest₂⟩
        rename_i ref rest
        have hcount : ref.count h = .ok (es₂.length : Int) := count_of_stored hL hr₂.stored
        rcases es₂ with - | ⟨e, es₂⟩
        · -- an empty leaf: restart from there
          rw [hleaves, List.length_cons] at hr
          obtain ⟨stack', kv, es', i', fs', hrun, hs⟩ := ih hat₂ (by omega)
          refine ⟨stack', kv, es', i', fs', ?_, hs.restart hafter⟩
          simp only [Cursor.nextLoop, hstep, ok_bind, hfirst, Cursor.back, pure_bind, hcount]
          exact hrun
        · have hne : ¬ (((e :: es₂).length : Nat) : Int) = 0 := by
            rw [List.length_cons]
            omega
          refine ⟨ref :: rest, keyValueOf (some e), e :: es₂, 0, fs₂, ?_, ⟨hat₂, ?_, ?_, ?_, ?_⟩⟩
          · simp only [Cursor.nextLoop, hstep, ok_bind, hfirst, Cursor.back, pure_bind, hcount,
              if_neg hne, keyValue_of_stored hL hr₂.stored 0 hr₂.index]
            rfl
          · rw [hafter]
            rfl
          · rw [hafter]
            rfl
          · intro e' he'
            rw [hafter] at he'
            exact he'
          · intro hnil
            rw [hafter] at hnil
            cases hnil

/-- A restart uses up one leaf on the right, and the tree has that many at
most. -/
theorem length_leavesAfter_lt {t u : Tree} {i : Nat} (hp : Path t ((u, i) :: fs)) {fuel : Nat}
    (hfuel : t.size < fuel) : (leavesAfter fs).length < fuel := by
  have hleaves := congrArg List.length hp.leaves_eq
  have hsize := t.length_leaves_le_size
  simp only [List.length_append] at hleaves
  omega

include hL in
theorem next_spec {t : Tree} (ht : t.BranchesNonempty) {fuel : Nat} (hfuel : t.size < fuel)
    {stack : Cursor.Stack} {es : List Entry} {i : Nat} (hat : At h b L t stack es i fs) :
    ∃ stack' kv es' i' fs', Cursor.next_ h b fuel stack = .ok (stack', kv) ∧
      Stepped h b L t ((.leaf es, i) :: fs) stack' kv es' i' fs' := by
  obtain ⟨stack', kv, es', i', fs', hrun, hs⟩ :=
    nextLoop_spec hL ht hfuel fuel hat (length_leavesAfter_lt hat.path hfuel)
  exact ⟨stack', kv, es', i', fs', by rw [Cursor.next_, if_pos hat.length_pos, hrun], hs⟩

end

end BoltCpp
