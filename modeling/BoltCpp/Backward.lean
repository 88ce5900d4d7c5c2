/-
BoltCpp/Backward.lean

Backward traversal: `last` and `prev`.

`prev` steps the stack back and then goes on with the public `last`, which
clears the stack and starts again at the root.  So from every entry but the
first it ends up on the last entry of the tree; only on the first entry, where
the stack runs empty before that, does it do what its documentation says
(`prev_of_run`).
-/
import BoltCpp.Forward

namespace BoltCpp

open ByteMem MultiTree

namespace Cursor

/-! ### Runs -/

/-- The calls that position a cursor. -/
inductive Move where
  | first
  | last
  | next
  deriving DecidableEq

def move (h : Heap) (b : Bucket) (fuel : Nat) : Move → Stack → Except Fault (Stack × Pair)
  | .first => first h b fuel
  | .last => last h b fuel
  | .next => next h b fuel

/-- A run of calls. -/
def moves (h : Heap) (b : Bucket) (fuel : Nat) : List Move → Stack → Except Fault Stack
  | [], stack => pure stack
  | m :: ms, stack => do
      let (stack, _) ← move h b fuel m stack
      moves h b fuel ms stack

/-- `k` calls of `prev` and what they return. -/
def prevs (h : Heap) (b : Bucket) (fuel : Nat) : Nat → Stack → Except Fault (List Pair)
  | 0, _ => pure []
  | k + 1, stack => do
      let (stack, pair) ← prev h b fuel stack
      let pairs ← prevs h b fuel k stack
      pure (pair :: pairs)

/-- `last` and `k` calls of `prev`. -/
def backwardScan (h : Heap) (b : Bucket) (fuel k : Nat) (stack : Stack) :
    Except Fault (List Pair) := do
  let (stack, pair) ← last h b fuel stack
  let pairs ← prevs h b fuel k stack
  pure (pair :: pairs)

/-! ### Positions on an entry -/

/-- The cursor is on entry `i` of the tree. -/
def OnEntry (h : Heap) (b : Bucket) (L : Layout) (t : Tree) (stack : Stack) (i : Nat) : Prop :=
  ∃ es j fs, At h b L t stack es j fs ∧ j < es.length ∧
    (before ((.leaf es, j) :: fs)).length = i

/-- What `prev` is for: on entry `i` it returns entry `i - 1` and moves there,
and on the first entry it returns nil. -/
def PrevSteps (h : Heap) (b : Bucket) (L : Layout) (t : Tree) (fuel : Nat) (stack : Stack)
    (i : Nat) : Prop :=
  ∃ stack' pair, prev h b fuel stack = .ok (stack', pair) ∧
    if i = 0 then pair = (none, none)
    else pair = pairOf t.elements[i - 1]? ∧ OnEntry h b L t stack' (i - 1)

variable {h : Heap} {b : Bucket} {L : Layout} {t : Tree} {fuel : Nat}

/-- A stack leads along one path only. -/
theorem linked_unique {stack : Stack} {fs fs' : List TreeFrame} (hl : Linked h b L stack fs)
    (hl' : Linked h b L stack fs') : fs = fs' := by
  induction hl generalizing fs' with
  | nil => cases hl'; rfl
  | @cons ref f rest fs hr hrest ih =>
      rcases hl' with - | ⟨hr', hrest'⟩
      rename_i f' fs'
      have ht : f.1 = f'.1 := hr.stored.unique hr'.stored
      have hi : f.2 = f'.2 := by
        have := hr.index.symm.trans hr'.index
        omega
      rw [Prod.ext ht hi, ih hrest']

theorem OnEntry.unique {stack : Stack} {i i' : Nat} (hon : OnEntry h b L t stack i)
    (hon' : OnEntry h b L t stack i') : i = i' := by
  obtain ⟨es, j, fs, hat, -, hi⟩ := hon
  obtain ⟨es', j', fs', hat', -, hi'⟩ := hon'
  rw [← hi, ← hi', linked_unique hat.linked hat'.linked]

/-- The entries left of, at and right of a position are all there are. -/
theorem length_before_after {es : List Entry} {j : Nat} {fs : List TreeFrame}
    {stack : Stack} (hat : At h b L t stack es j fs) (hj : j < es.length) :
    (before ((.leaf es, j) :: fs)).length + 1 + (after ((.leaf es, j) :: fs)).length
      = t.elements.length := by
  rw [hat.path.elements_eq hj, List.length_append, List.length_cons]
  omega

theorem OnEntry.lt {stack : Stack} {i : Nat} (hon : OnEntry h b L t stack i) :
    i < t.elements.length := by
  obtain ⟨es, j, fs, hat, hj, hi⟩ := hon
  have := length_before_after hat hj
  omega

section

variable (hL : L.Faithful) (ht : HasTree h b L t) (hb : t.BranchesNonempty)
  (hl : t.LeavesNonempty) (hfuel : t.size < fuel)

include hb hl in
theorem elements_ne_nil : t.elements ≠ [] := by
  obtain ⟨es, ls, -, -, hleaves, -⟩ := leftmost_spec t [] hb (.root 0)
  have hes : es ≠ [] := hl.ne_nil es (by simp [hleaves])
  rw [elements, hleaves, List.flatten_cons]
  exact fun h => hes (List.append_eq_nil_iff.mp h).1

include hL ht hb hfuel in
/-- `last` moves to the rightmost leaf, and to its last entry if there is one. -/
theorem last_lands (stack₀ : Stack) :
    ∃ stack es ls, last h b fuel stack₀ = .ok (stack, pairOf es.getLast?) ∧
      t.leaves = ls ++ [es] ∧ (es ≠ [] → OnEntry h b L t stack (t.elements.length - 1)) := by
  obtain ⟨⟨p, n⟩, hroot, hst⟩ := ht.root
  have hcount : (⟨p, n, 0⟩ : ElemRef).count h = .ok (t.width : Int) := count_of_stored hL hst
  have hr₀ : LastRef h b L ⟨p, n, (t.width : Int) - 1⟩ t := ⟨hst, rfl⟩
  obtain ⟨ref, rest, es, fs, hlast, hright, hr, hrest⟩ :=
    last_spec hL t hb hr₀ .nil (Nat.le_of_lt hfuel)
  obtain ⟨es', ls, fs', hright', hleaves, -, hbefore, hpath⟩ :=
    rightmost_spec t [] hb (.root (t.width - 1))
  rw [hright] at hright'
  cases hright'
  have hkv : keyValue h (ref :: rest) = .ok (keyValueOf es.getLast?) := keyValue_of_last hL hr
  have hreturns : last h b fuel stack₀ = .ok (ref :: rest, pairOf es.getLast?) := by
    rw [← toPair_keyValueOf]
    exact last_returns ht hroot hcount hlast hkv stack₀
  refine ⟨ref :: rest, es, ls, hreturns, hleaves, fun hes => ?_⟩
  have hpos : 0 < es.length := List.length_pos_iff.mpr hes
  refine ⟨es, es.length - 1, fs, ⟨.cons (hr.linked hpos) hrest, hpath⟩, by omega, ?_⟩
  rw [before, hbefore, elements, hleaves]
  simp only [leavesBefore, List.nil_append, List.length_append, List.length_take,
    List.flatten_append, List.flatten_cons, List.flatten_nil, List.append_nil]
  omega

/-- The last entry of the tree is in the rightmost leaf that has one. -/
theorem getLast?_elements {es : List Entry} {ls : List (List Entry)}
    (hleaves : t.leaves = ls ++ [es]) (hes : es ≠ []) : t.elements.getLast? = es.getLast? := by
  rw [elements, hleaves, List.flatten_append, List.flatten_cons, List.flatten_nil,
    List.append_nil, List.getLast?_append_of_ne_nil _ hes]

include hL ht hb hl hfuel in
/-- `last` moves to the last entry. -/
theorem last_eq (stack₀ : Stack) :
    ∃ stack, last h b fuel stack₀ = .ok (stack, pairOf t.elements.getLast?) ∧
      OnEntry h b L t stack (t.elements.length - 1) := by
  obtain ⟨stack, es, ls, hrun, hleaves, hon⟩ := last_lands hL ht hb hfuel stack₀
  have hes : es ≠ [] := hl.ne_nil es (by simp [hleaves])
  exact ⟨stack, by rw [getLast?_elements hleaves hes, hrun], hon hes⟩

/-! ### `first`, `last` and `next` -/

include hL ht hb hl hfuel in
/-- From an entry, `next` moves to the next one, or stays on the last. -/
theorem next_onEntry {stack : Stack} {i : Nat} (hon : OnEntry h b L t stack i) :
    ∃ stack' pair i', next h b fuel stack = .ok (stack', pair) ∧
      OnEntry h b L t stack' i' := by
  obtain ⟨es, j, fs, hat, hj, -⟩ := hon
  obtain ⟨stack', kv, es', j', fs', hrun, hs⟩ := next_eq hL ht hb hfuel hat
  refine ⟨stack', _, _, hrun, es', j', fs', hs.at', ?_, rfl⟩
  have hes' : es' ≠ [] := LeavesNonempty.of_path hl hs.at'.path
  -- either there is an entry to the right, or the cursor stays on the last one
  rcases hhead : (after ((.leaf es, j) :: fs)).head? with - | e
  · rcases hs.stays (List.head?_eq_none_iff.mp hhead) with heq | hempty
    · cases heq
      exact hj
    · exact absurd hempty hes'
  · exact (List.getElem?_eq_some_iff.mp (hs.entry e hhead)).1

include hL ht hb hl hfuel in
theorem first_onEntry (stack₀ : Stack) :
    ∃ stack pair i, first h b fuel stack₀ = .ok (stack, pair) ∧ OnEntry h b L t stack i := by
  obtain ⟨stack, es, j, fs, hrun, hat, -, hentry⟩ := first_eq hL ht hb hfuel stack₀
  refine ⟨stack, _, _, hrun, es, j, fs, hat, ?_, rfl⟩
  obtain ⟨e, he⟩ := Option.isSome_iff_exists.mp
    (List.isSome_head?.mpr (elements_ne_nil hb hl))
  exact (List.getElem?_eq_some_iff.mp (hentry e he)).1

include hL ht hb hl hfuel in
/-- One call keeps the cursor on an entry. -/
theorem move_onEntry (m : Move) (stack : Stack)
    (hon : m = .next → ∃ i, OnEntry h b L t stack i) :
    ∃ stack' pair i', move h b fuel m stack = .ok (stack', pair) ∧
      OnEntry h b L t stack' i' := by
  cases m with
  | first => exact first_onEntry hL ht hb hl hfuel stack
  | last =>
      obtain ⟨stack', hrun, hon'⟩ := last_eq hL ht hb hl hfuel stack
      exact ⟨stack', _, _, hrun, hon'⟩
  | next =>
      obtain ⟨i, hi⟩ := hon rfl
      exact next_onEntry hL ht hb hl hfuel hi

include hL ht hb hl hfuel in
/-- So does a run. -/
theorem moves_onEntry (ms : List Move) :
    ∀ {stack : Stack} {i : Nat}, OnEntry h b L t stack i →
      ∃ stack' i', moves h b fuel ms stack = .ok stack' ∧ OnEntry h b L t stack' i' := by
  induction ms with
  | nil => exact fun hon => ⟨_, _, rfl, hon⟩
  | cons m ms ih =>
      intro stack i hon
      obtain ⟨stack₁, pair, i₁, hmove, hon₁⟩ :=
        move_onEntry hL ht hb hl hfuel m stack fun _ => ⟨i, hon⟩
      obtain ⟨stack', i', hrun, hon'⟩ := ih hon₁
      refine ⟨stack', i', ?_, hon'⟩
      simp only [moves, hmove, ok_bind, hrun]

/-! ### `prev` -/

include ht hb hl in
/-- On the first entry the stack runs empty. -/
theorem prev_of_first {stack : Stack} (hon : OnEntry h b L t stack 0) :
    prev h b fuel stack = .ok ([], none, none) := by
  obtain ⟨es, j, fs, hat, -, hlen⟩ := hon
  have hnil : retreat ((.leaf es, j) :: fs) = [] := by
    by_contra hne
    exact before_ne_nil_of_retreat hb hl hat.path hne (List.length_eq_zero_iff.mp hlen)
  have hback := stepBack_linked hat.linked
  rw [hnil] at hback
  simp only [prev, assertOpen_ok ht, ok_bind, List.forall₂_nil_right_iff.mp hback]
  rfl

include hL ht hb hl hfuel in
/-- **From any other entry `prev` jumps to the last entry.** -/
theorem prev_of_later {stack : Stack} {i : Nat} (hon : OnEntry h b L t stack i) (hi : 0 < i) :
    ∃ stack', prev h b fuel stack = .ok (stack', pairOf t.elements.getLast?) ∧
      OnEntry h b L t stack' (t.elements.length - 1) := by
  obtain ⟨es, j, fs, hat, -, hlen⟩ := hon
  -- something is left of the entry, so the stack does not run empty
  have hne : retreat ((.leaf es, j) :: fs) ≠ [] := by
    intro hnil
    have hj : j = 0 := by
      by_contra hj
      rw [retreat, if_pos (by omega)] at hnil
      cases hnil
    have hbefore := leavesBefore_of_retreat_nil hnil
    rw [leavesBefore_leaf] at hbefore
    rw [before, hbefore, hj] at hlen
    simp at hlen
    omega
  have hback := (stepBack_linked hat.linked).length_eq
  have hpos : ¬ (stepBack stack).length = 0 := by
    rw [hback]
    exact fun h0 => hne (List.length_eq_zero_iff.mp h0)
  -- `last` ignores the stack that was stepped back
  obtain ⟨stack', hlast, hon'⟩ := last_eq hL ht hb hl hfuel (stepBack stack)
  have hkv : keyValue h stack' = .ok (keyValueOf t.elements.getLast?) := by
    obtain ⟨es', j', fs', hat', hj', hlen'⟩ := hon'
    rw [keyValue_of_at hL hat', List.getLast?_eq_getElem?, ← hlen',
      hat'.path.getElem?_length_before hj', List.getElem?_eq_getElem hj']
  refine ⟨stack', ?_, hon'⟩
  simp only [prev, assertOpen_ok ht, ok_bind, if_neg hpos, hlast, hkv, toPair_keyValueOf]
  rfl

include hL ht hb hl hfuel in
/-- `prev` is right on the first entry only. -/
theorem prevSteps_iff {stack : Stack} {i : Nat} (hon : OnEntry h b L t stack i) :
    PrevSteps h b L t fuel stack i ↔ i = 0 := by
  constructor
  · rintro ⟨stack', pair, hprev, hspec⟩
    by_contra hne
    obtain ⟨stack'', hprev', hon'⟩ := prev_of_later hL ht hb hl hfuel hon (by omega)
    rw [hprev] at hprev'
    obtain ⟨rfl, -⟩ := Prod.ext_iff.mp (Except.ok.inj hprev')
    rw [if_neg hne] at hspec
    -- the cursor cannot be on entry `i - 1` and on the last one, which is not before `i`
    have := hspec.2.unique hon'
    have := hon.lt
    omega
  · rintro rfl
    exact ⟨[], (none, none), prev_of_first ht hb hl hon, by simp⟩

/-! ### Whole scans -/

include ht in
theorem prevs_of_empty (k : Nat) :
    prevs h b fuel k [] = .ok (List.replicate k (none, none)) := by
  induction k with
  | zero => rfl
  | succ k ih =>
      have hprev : prev h b fuel [] = .ok ([], none, none) := by
        simp only [prev, assertOpen_ok ht, ok_bind]
        rfl
      simp only [prevs, hprev, ok_bind, ih, List.replicate_succ]
      rfl

include hL ht hb hl hfuel in
/-- With two entries or more, `prev` never leaves the last one. -/
theorem prevs_of_last (hlen : 1 < t.elements.length) (k : Nat) :
    ∀ {stack : Stack}, OnEntry h b L t stack (t.elements.length - 1) →
      prevs h b fuel k stack = .ok (List.replicate k (pairOf t.elements.getLast?)) := by
  induction k with
  | zero => intro stack _; rfl
  | succ k ih =>
      intro stack hon
      obtain ⟨stack', hprev, hon'⟩ := prev_of_later hL ht hb hl hfuel hon (by omega)
      simp only [prevs, hprev, ok_bind, ih hon', List.replicate_succ]
      rfl

include ht hb hl in
theorem prevs_of_first {stack : Stack} (hon : OnEntry h b L t stack 0) (k : Nat) :
    prevs h b fuel k stack = .ok (List.replicate k (none, none)) := by
  cases k with
  | zero => rfl
  | succ k =>
      simp only [prevs, prev_of_first ht hb hl hon, ok_bind, prevs_of_empty ht,
        List.replicate_succ]
      rfl

include hL ht hb hl hfuel in
theorem backwardScan_of_single (hlen : t.elements.length = 1) (k : Nat) (stack₀ : Stack) :
    backwardScan h b fuel k stack₀
      = .ok ((List.range (k + 1)).map fun j => pairOf t.elements.reverse[j]?) := by
  obtain ⟨stack, hlast, hon⟩ := last_eq hL ht hb hl hfuel stack₀
  rw [hlen] at hon
  have htail : List.replicate k ((none, none) : Pair)
      = (List.range k).map fun j => pairOf t.elements.reverse[j + 1]? := by
    refine List.ext_getElem (by simp) fun j hj _ => ?_
    have hout : t.elements.reverse[j + 1]? = none :=
      List.getElem?_eq_none (by rw [List.length_reverse]; omega)
    rw [List.getElem_replicate, List.getElem_map, List.getElem_range, hout]
    rfl
  have hhead : t.elements.getLast? = t.elements.reverse[0]? := by
    rw [List.getLast?_eq_head?_reverse, List.head?_eq_getElem?]
  simp only [backwardScan, hlast, ok_bind, prevs_of_first ht hb hl hon, htail, hhead,
    List.range_succ_eq_map, List.map_cons, List.map_map]
  rfl

include hL ht hb hl hfuel in
/-- A backward scan of several entries does not come to an end. -/
theorem backwardScan_of_several (hlen : 1 < t.elements.length) (k : Nat) (stack₀ : Stack) :
    backwardScan h b fuel k stack₀
      = .ok (List.replicate (k + 1) (pairOf t.elements.getLast?)) := by
  obtain ⟨stack, hlast, hon⟩ := last_eq hL ht hb hl hfuel stack₀
  simp only [backwardScan, hlast, ok_bind, prevs_of_last hL ht hb hl hfuel hlen k hon,
    List.replicate_succ]
  rfl

include hL ht hb hl hfuel in
theorem backwardScan_iff (stack₀ : Stack) :
    (∀ k, backwardScan h b fuel k stack₀
        = .ok ((List.range (k + 1)).map fun j => pairOf t.elements.reverse[j]?)) ↔
      t.elements.length = 1 := by
  constructor
  · intro hscan
    by_contra hne
    have hpos := List.length_pos_iff.mpr (elements_ne_nil hb hl)
    -- past the first entry a scan is to return nil
    have hlast := hscan t.elements.length
    rw [backwardScan_of_several hL ht hb hl hfuel (by omega)] at hlast
    have := congrArg (fun l => l[t.elements.length]?) (Except.ok.inj hlast)
    simp only [List.getElem?_map, List.getElem?_range (Nat.lt_succ_self _), Option.map_some,
      List.getElem?_replicate_of_lt (Nat.lt_succ_self _)] at this
    have hout : t.elements.reverse[t.elements.length]? = none :=
      List.getElem?_eq_none (by rw [List.length_reverse])
    rw [hout, List.getLast?_eq_some_getLast (elements_ne_nil hb hl)] at this
    exact pairOf_some_ne_nil _ (Option.some.inj this)
  · exact fun hlen k => backwardScan_of_single hL ht hb hl hfuel hlen k stack₀

include hL ht hb hl hfuel in
/-- **When `prev` steps back.**  Every run that starts with `first` or `last`
ends on an entry, and from there `prev` moves to the entry before, or returns
nil if there is none, exactly when the cursor is on the first entry.  A
backward scan is the reverse of the entries exactly when there is one entry. -/
theorem prev_of_run :
    (∀ m ms stack₀, m ≠ Move.next →
      ∃ stack i, moves h b fuel (m :: ms) stack₀ = .ok stack ∧ OnEntry h b L t stack i ∧
        (PrevSteps h b L t fuel stack i ↔ i = 0)) ∧
    ∀ stack₀, (∀ k, backwardScan h b fuel k stack₀
        = .ok ((List.range (k + 1)).map fun j => pairOf t.elements.reverse[j]?)) ↔
      t.elements.length = 1 := by
  refine ⟨fun m ms stack₀ hm => ?_, backwardScan_iff hL ht hb hl hfuel⟩
  obtain ⟨stack₁, pair, i₁, hmove, hon₁⟩ :=
    move_onEntry hL ht hb hl hfuel m stack₀ fun hnext => absurd hnext hm
  obtain ⟨stack, i, hrun, hon⟩ := moves_onEntry hL ht hb hl hfuel ms hon₁
  refine ⟨stack, i, ?_, hon, prevSteps_iff hL ht hb hl hfuel hon⟩
  simp only [moves, hmove, ok_bind, hrun]

end

/-- The second leaf of the sample tree. -/
def sampleInodes : List INode := [{ key := [99], value := [7] }]

theorem leavesNonempty_sample : (sampleTree sampleInodes).LeavesNonempty := by
  intro i
  match i with
  | 0 => exact List.cons_ne_nil _ _
  | 1 => exact List.cons_ne_nil _ _

theorem prev_of_run_sample :
    ∃ stack i, moves (sampleHeap sampleInodes) sampleBucket 4 [.first, .next] [] = .ok stack ∧
      OnEntry (sampleHeap sampleInodes) sampleBucket fileLayout (sampleTree sampleInodes) stack i ∧
      (PrevSteps (sampleHeap sampleInodes) sampleBucket fileLayout (sampleTree sampleInodes) 4
        stack i ↔ i = 0) :=
  (prev_of_run fileLayout_faithful (hasTree_sample sampleInodes)
    (branchesNonempty_sample sampleInodes) leavesNonempty_sample (by decide)).1
    .first [.next] [] (by decide)

/-- After `first` and `next`, `prev` returns the last of the three entries,
not the first; and a backward scan returns nothing else. -/
theorem prev_jumps_to_last :
    (∃ stack stack', moves (sampleHeap sampleInodes) sampleBucket 4 [.first, .next] [] = .ok stack ∧
      prev (sampleHeap sampleInodes) sampleBucket 4 stack
        = .ok (stack', some [99], some [7])) ∧
    (∃ stack, moves (sampleHeap sampleInodes) sampleBucket 4 [.last] [] = .ok stack ∧
      OnEntry (sampleHeap sampleInodes) sampleBucket fileLayout (sampleTree sampleInodes) stack 2 ∧
      ¬ PrevSteps (sampleHeap sampleInodes) sampleBucket fileLayout (sampleTree sampleInodes) 4
        stack 2) ∧
    backwardScan (sampleHeap sampleInodes) sampleBucket 4 3 []
      = .ok (List.replicate 4 (some [99], some [7])) := by
  have ht := hasTree_sample sampleInodes
  have hb := branchesNonempty_sample sampleInodes
  have hfuel : (sampleTree sampleInodes).size < 4 := by decide
  obtain ⟨stack, hlast, hon⟩ := last_eq fileLayout_faithful ht hb leavesNonempty_sample hfuel []
  refine ⟨⟨_, _, rfl, rfl⟩, ⟨stack, ?_, hon, fun hprev => ?_⟩, rfl⟩
  · simp only [moves, move, hlast, ok_bind]
    rfl
  · have := (prevSteps_iff fileLayout_faithful ht hb leavesNonempty_sample hfuel hon).mp hprev
    cases this

end Cursor

end BoltCpp
