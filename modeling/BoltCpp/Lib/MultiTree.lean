/-
BoltCpp/Lib/MultiTree.lean

Finite multiway trees and positions in them.  Leaves hold lists, a branch
holds `n` children, each under a separator; any leaf may be empty.

A position is a stack of frames, the innermost first; a frame is a subtree
with an index into it.  `Path t fs` says that `fs` leads from the root of `t`
to the subtree of its first frame.  What lies to the right and to the left
of a position is read off the frames alone:

    t.leaves = leavesBefore fs ++ (the innermost subtree).leaves ++ leavesAfter fs

The moves of a cursor are functions on frames: `advance` steps the innermost
frame that has room, dropping the exhausted ones above it, `retreat` is its
mirror image, `leftmost` and `rightmost` descend to a leaf.  Each has one
lemma that says what it does to the leaves on either side.
-/
import Mathlib.Data.List.OfFn
import Mathlib.Data.List.Flatten
import Mathlib.Algebra.Order.BigOperators.Group.List
import Mathlib.Algebra.Order.Ring.Nat

universe u v

/-- A finite multiway tree with separators in `κ` and leaf entries in `α`. -/
inductive MultiTree (κ : Type u) (α : Type v) where
  | leaf (es : List α)
  | branch (n : Nat) (sep : Fin n → κ) (child : Fin n → MultiTree κ α)

namespace MultiTree

variable {κ : Type u} {α : Type v}

/-! ### Contents and shape -/

/-- The leaves, left to right. -/
def leaves : MultiTree κ α → List (List α)
  | leaf es => [es]
  | branch _ _ child => (List.ofFn fun i => (child i).leaves).flatten

/-- The entries, left to right. -/
def elements (t : MultiTree κ α) : List α := t.leaves.flatten

/-- The number of subtrees; it bounds the height and the number of leaves. -/
def size : MultiTree κ α → Nat
  | leaf _ => 1
  | branch _ _ child => 1 + (List.ofFn fun i => (child i).size).sum

/-- The number of children of a branch, or of entries of a leaf. -/
def width : MultiTree κ α → Nat
  | leaf es => es.length
  | branch n _ _ => n

/-- Every branch has a child. -/
def BranchesNonempty : MultiTree κ α → Prop
  | leaf _ => True
  | branch n _ child => 0 < n ∧ ∀ i, (child i).BranchesNonempty

/-- Every leaf has an entry. -/
def LeavesNonempty : MultiTree κ α → Prop
  | leaf es => es ≠ []
  | branch _ _ child => ∀ i, (child i).LeavesNonempty

@[simp] theorem leaves_leaf (es : List α) : (leaf es : MultiTree κ α).leaves = [es] := rfl

@[simp] theorem elements_leaf (es : List α) : (leaf es : MultiTree κ α).elements = es := by
  simp [elements]

theorem size_child_lt (n : Nat) (sep : Fin n → κ) (child : Fin n → MultiTree κ α)
    (i : Fin n) : (child i).size < (branch n sep child).size := by
  have hmem : (child i).size ∈ List.ofFn fun j => (child j).size :=
    List.mem_ofFn.mpr ⟨i, rfl⟩
  have := List.single_le_sum (fun _ _ => Nat.zero_le _) _ hmem
  simp only [size]
  omega

/-- A measure for walks that go through the children of a branch one by one and
may do so anew at every level: a step at a branch is worth more than all the
steps below any of its children. -/
def weight : MultiTree κ α → Nat
  | leaf _ => 0
  | branch _ _ child => 1 + (List.ofFn fun i => (child i).width * (child i).weight).sum

theorem weight_child_lt (n : Nat) (sep : Fin n → κ) (child : Fin n → MultiTree κ α)
    (i : Fin n) : (child i).width * (child i).weight < (branch n sep child).weight := by
  have hmem : (child i).width * (child i).weight
      ∈ List.ofFn fun j => (child j).width * (child j).weight := List.mem_ofFn.mpr ⟨i, rfl⟩
  have := List.single_le_sum (fun _ _ => Nat.zero_le _) _ hmem
  simp only [weight]
  omega

theorem length_leaves_le_size (t : MultiTree κ α) : t.leaves.length ≤ t.size := by
  induction t with
  | leaf es => simp [size]
  | branch n sep child ih =>
      have hsum : ((List.ofFn fun i => (child i).leaves).map List.length).sum
          ≤ (List.ofFn fun i => (child i).size).sum := by
        rw [List.map_ofFn]
        refine List.Forall₂.sum_le_sum ?_
        rw [List.forall₂_iff_get]
        exact ⟨by simp, fun i h₁ h₂ => by simpa using ih _⟩
      simp only [leaves, size, List.length_flatten]
      omega

/-- A child sits between its left and its right siblings. -/
theorem leaves_branch_split (n : Nat) (sep : Fin n → κ) (child : Fin n → MultiTree κ α)
    (i : Fin n) :
    (branch n sep child).leaves
      = ((List.ofFn fun j => (child j).leaves).take i).flatten ++ (child i).leaves
        ++ ((List.ofFn fun j => (child j).leaves).drop (i + 1)).flatten := by
  have hi : (i : Nat) < (List.ofFn fun j => (child j).leaves).length := by simp
  have hsplit : List.ofFn (fun j => (child j).leaves)
      = (List.ofFn fun j => (child j).leaves).take i
        ++ (child i).leaves :: (List.ofFn fun j => (child j).leaves).drop (i + 1) := by
    conv_lhs => rw [← List.take_append_drop i (List.ofFn fun j => (child j).leaves)]
    rw [List.drop_eq_getElem_cons hi, List.getElem_ofFn]
  conv_lhs => rw [leaves, hsplit]
  simp

/-! ### Positions -/

/-- A subtree and an index into it. -/
abbrev Frame (κ : Type u) (α : Type v) := MultiTree κ α × Nat

/-- `Path t fs`: the frames lead from the root of `t` down to the subtree of
the first frame, each index naming the child the next frame is about.  The
first index is free. -/
inductive Path (t : MultiTree κ α) : List (Frame κ α) → Prop
  | root (i : Nat) : Path t [(t, i)]
  | child {n : Nat} {sep : Fin n → κ} {c : Fin n → MultiTree κ α} {i : Nat}
      {fs : List (Frame κ α)} (h : Path t ((branch n sep c, i) :: fs)) (hi : i < n)
      (j : Nat) : Path t ((c ⟨i, hi⟩, j) :: (branch n sep c, i) :: fs)

/-- The leaves of a frame's subtree strictly right of its index. -/
def tailLeaves : Frame κ α → List (List α)
  | (leaf _, _) => []
  | (branch _ _ child, i) => ((List.ofFn fun j => (child j).leaves).drop (i + 1)).flatten

/-- The leaves of a frame's subtree strictly left of its index. -/
def headLeaves : Frame κ α → List (List α)
  | (leaf _, _) => []
  | (branch _ _ child, i) => ((List.ofFn fun j => (child j).leaves).take i).flatten

/-- The leaves right of a position. -/
def leavesAfter : List (Frame κ α) → List (List α)
  | [] => []
  | f :: fs => tailLeaves f ++ leavesAfter fs

/-- The leaves left of a position. -/
def leavesBefore : List (Frame κ α) → List (List α)
  | [] => []
  | f :: fs => leavesBefore fs ++ headLeaves f

/-- The entries right of a position in a leaf. -/
def after : List (Frame κ α) → List α
  | (leaf es, i) :: fs => es.drop (i + 1) ++ (leavesAfter fs).flatten
  | fs => (leavesAfter fs).flatten

/-- The entries left of a position in a leaf. -/
def before : List (Frame κ α) → List α
  | (leaf es, i) :: fs => (leavesBefore fs).flatten ++ es.take i
  | fs => (leavesBefore fs).flatten

@[simp] theorem leavesAfter_leaf (es : List α) (i : Nat) (fs : List (Frame κ α)) :
    leavesAfter ((leaf es, i) :: fs) = leavesAfter fs := rfl

@[simp] theorem leavesBefore_leaf (es : List α) (i : Nat) (fs : List (Frame κ α)) :
    leavesBefore ((leaf es, i) :: fs) = leavesBefore fs := by
  simp [leavesBefore, headLeaves]

theorem mem_flatten_headLeaves {n : Nat} {sep : Fin n → κ} {child : Fin n → MultiTree κ α}
    {c : Nat} {e : α}
    (he : e ∈ (headLeaves (branch n sep child, c)).flatten) :
    ∃ i : Fin n, (i : Nat) < c ∧ e ∈ (child i).elements := by
  simp only [headLeaves, List.mem_flatten, List.mem_take_iff_getElem] at he
  obtain ⟨es, ⟨ls, ⟨i, hi, rfl⟩, hes⟩, he⟩ := he
  simp only [List.length_ofFn, lt_min_iff] at hi
  rw [List.getElem_ofFn] at hes
  exact ⟨⟨i, hi.2⟩, hi.1, List.mem_flatten.mpr ⟨es, hes, he⟩⟩

theorem mem_flatten_tailLeaves {n : Nat} {sep : Fin n → κ} {child : Fin n → MultiTree κ α}
    {c : Nat} {e : α}
    (he : e ∈ (tailLeaves (branch n sep child, c)).flatten) :
    ∃ i : Fin n, c < (i : Nat) ∧ e ∈ (child i).elements := by
  simp only [tailLeaves, List.mem_flatten, List.mem_drop_iff_getElem] at he
  obtain ⟨es, ⟨ls, ⟨i, hi, rfl⟩, hes⟩, he⟩ := he
  simp only [List.length_ofFn] at hi
  rw [List.getElem_ofFn] at hes
  exact ⟨⟨c + 1 + i, by omega⟩, by simp only; omega, List.mem_flatten.mpr ⟨es, hes, he⟩⟩

/-- Re-indexing the innermost frame keeps the path. -/
theorem Path.reindex {t u : MultiTree κ α} {i : Nat} {fs : List (Frame κ α)}
    (h : Path t ((u, i) :: fs)) (j : Nat) : Path t ((u, j) :: fs) := by
  cases h with
  | root => exact .root j
  | child h hi => exact .child h hi j

/-- Dropping frames from a path leaves a path. -/
theorem Path.tail {t : MultiTree κ α} {f g : Frame κ α} {fs : List (Frame κ α)}
    (h : Path t (f :: g :: fs)) : Path t (g :: fs) := by
  cases h with
  | child h hi => exact h

/-- Below the innermost frame there are only branches, with valid indices. -/
theorem Path.tail_branch {t : MultiTree κ α} {f g : Frame κ α} {fs : List (Frame κ α)}
    (h : Path t (f :: g :: fs)) :
    ∃ n sep c, ∃ i : Fin n, g = (branch n sep c, (i : Nat)) ∧ f.1 = c i := by
  cases h with
  | @child n sep c i fs h hi j => exact ⟨n, sep, c, ⟨i, hi⟩, rfl, rfl⟩

/-- **A position splits the leaves of the tree.** -/
theorem Path.leaves_eq {t u : MultiTree κ α} {i : Nat} {fs : List (Frame κ α)}
    (h : Path t ((u, i) :: fs)) :
    t.leaves = leavesBefore fs ++ u.leaves ++ leavesAfter fs := by
  generalize hl : (u, i) :: fs = l at h
  induction h generalizing u i fs with
  | root i =>
      cases hl
      simp [leavesBefore, leavesAfter]
  | @child n sep c i' fs' h hi j ih =>
      cases hl
      rw [ih rfl, leaves_branch_split n sep c ⟨i', hi⟩]
      simp [leavesBefore, leavesAfter, headLeaves, tailLeaves]

/-- A position in a leaf splits the entries of the tree. -/
theorem Path.elements_eq {t : MultiTree κ α} {es : List α} {i : Nat}
    {fs : List (Frame κ α)} (h : Path t ((leaf es, i) :: fs)) (hi : i < es.length) :
    t.elements = before ((leaf es, i) :: fs) ++ es[i] :: after ((leaf es, i) :: fs) := by
  rw [elements, h.leaves_eq]
  have hes : es = es.take i ++ es[i] :: es.drop (i + 1) := by
    rw [← List.drop_eq_getElem_cons hi, List.take_append_drop]
  simp only [before, after, leaves_leaf, List.flatten_append, List.flatten_cons,
    List.flatten_nil, List.append_nil, List.append_assoc]
  rw [← List.cons_append, ← List.append_assoc (es.take i), ← hes]

/-- The entry at a position is the entry of the tree with as many entries
left of it as the position has. -/
theorem Path.getElem?_length_before {t : MultiTree κ α} {es : List α} {i : Nat}
    {fs : List (Frame κ α)} (h : Path t ((leaf es, i) :: fs)) (hi : i < es.length) :
    t.elements[(before ((leaf es, i) :: fs)).length]? = some es[i] := by
  rw [h.elements_eq hi]
  simp

/-- **What children inherit** holds of every subtree a path leads to. -/
theorem Path.inherit {P : MultiTree κ α → Prop}
    (hchild : ∀ (n : Nat) (sep : Fin n → κ) (c : Fin n → MultiTree κ α),
      P (branch n sep c) → ∀ i, P (c i))
    {t u : MultiTree κ α} {i : Nat} {fs : List (Frame κ α)} (h : Path t ((u, i) :: fs))
    (ht : P t) : P u := by
  generalize hl : (u, i) :: fs = l at h
  induction h generalizing u i fs with
  | root i =>
      cases hl
      exact ht
  | @child n sep c i' fs' h hi j ih =>
      cases hl
      exact hchild n sep c (ih rfl) ⟨i', hi⟩

/-- A subtree is no larger than the tree. -/
theorem Path.size_le {t u : MultiTree κ α} {i : Nat} {fs : List (Frame κ α)}
    (h : Path t ((u, i) :: fs)) : u.size ≤ t.size := by
  refine h.inherit (P := fun v => v.size ≤ t.size) (fun n sep c hle j => ?_) (Nat.le_refl _)
  exact Nat.le_trans (Nat.le_of_lt (size_child_lt n sep c j)) hle

theorem BranchesNonempty.of_path {t u : MultiTree κ α} {i : Nat} {fs : List (Frame κ α)}
    (ht : t.BranchesNonempty) (h : Path t ((u, i) :: fs)) : u.BranchesNonempty :=
  h.inherit (fun _ _ _ hb => hb.2) ht

theorem LeavesNonempty.of_path {t u : MultiTree κ α} {i : Nat} {fs : List (Frame κ α)}
    (ht : t.LeavesNonempty) (h : Path t ((u, i) :: fs)) : u.LeavesNonempty :=
  h.inherit (fun _ _ _ hl => hl) ht

theorem LeavesNonempty.ne_nil {t : MultiTree κ α} (ht : t.LeavesNonempty) :
    ∀ es ∈ t.leaves, es ≠ [] := by
  induction t with
  | leaf es =>
      intro es' h
      obtain rfl : es' = es := by simpa using h
      exact ht
  | branch n sep child ih =>
      intro es h
      simp only [leaves, List.mem_flatten, List.mem_ofFn] at h
      obtain ⟨_, ⟨i, rfl⟩, h⟩ := h
      exact ih i (ht i) es h

/-! ### Descending -/

/-- Descend to the first leaf of `t`. -/
def leftmost : MultiTree κ α → List (Frame κ α) → List (Frame κ α)
  | leaf es, fs => (leaf es, 0) :: fs
  | branch n sep c, fs =>
      if h : 0 < n then leftmost (c ⟨0, h⟩) ((branch n sep c, 0) :: fs)
      else (branch n sep c, 0) :: fs

/-- Descend to the last entry of the last leaf of `t`. -/
def rightmost : MultiTree κ α → List (Frame κ α) → List (Frame κ α)
  | leaf es, fs => (leaf es, es.length - 1) :: fs
  | branch n sep c, fs =>
      if h : 0 < n then rightmost (c ⟨n - 1, by omega⟩) ((branch n sep c, n - 1) :: fs)
      else (branch n sep c, n - 1) :: fs

/-- `leftmost` arrives at the first leaf; the others are right of it. -/
theorem leftmost_spec {r : MultiTree κ α} (t : MultiTree κ α) :
    ∀ fs, t.BranchesNonempty → Path r ((t, 0) :: fs) →
      ∃ es ls fs', leftmost t fs = (leaf es, 0) :: fs' ∧ t.leaves = es :: ls ∧
        leavesAfter fs' = ls ++ leavesAfter fs ∧ leavesBefore fs' = leavesBefore fs ∧
        Path r ((leaf es, 0) :: fs') := by
  induction t with
  | leaf es =>
      intro fs _ hp
      exact ⟨es, [], fs, rfl, rfl, rfl, rfl, hp⟩
  | branch n sep c ih =>
      intro fs hne hp
      obtain ⟨hn, hc⟩ := hne
      obtain ⟨es, ls, fs', hl, hls, ha, hb, hp'⟩ := ih ⟨0, hn⟩ _ (hc _) (.child hp hn 0)
      -- right of the leaf: the rest of child 0, then the other children
      refine ⟨es, ls ++ tailLeaves (branch n sep c, 0), fs', ?_, ?_, ?_, ?_, hp'⟩
      · rw [leftmost, dif_pos hn, hl]
      · rw [leaves_branch_split n sep c ⟨0, hn⟩, hls]
        simp [tailLeaves]
      · rw [ha, leavesAfter, List.append_assoc]
      · rw [hb, leavesBefore]
        simp [headLeaves]

/-- `rightmost` arrives at the last leaf; the others are left of it. -/
theorem rightmost_spec {r : MultiTree κ α} (t : MultiTree κ α) :
    ∀ fs, t.BranchesNonempty → Path r ((t, t.width - 1) :: fs) →
      ∃ es ls fs', rightmost t fs = (leaf es, es.length - 1) :: fs' ∧
        t.leaves = ls ++ [es] ∧
        leavesAfter fs' = leavesAfter fs ∧ leavesBefore fs' = leavesBefore fs ++ ls ∧
        Path r ((leaf es, es.length - 1) :: fs') := by
  induction t with
  | leaf es =>
      intro fs _ hp
      exact ⟨es, [], fs, rfl, rfl, rfl, by simp, hp⟩
  | branch n sep c ih =>
      intro fs hne hp
      obtain ⟨hn, hc⟩ := hne
      have hlt : n - 1 < n := by omega
      have hlast : n - 1 + 1 = n := by omega
      have hp : Path r ((branch n sep c, n - 1) :: fs) := hp
      obtain ⟨es, ls, fs', hl, hls, ha, hb, hp'⟩ :=
        ih ⟨n - 1, hlt⟩ _ (hc _) (.child hp hlt _)
      -- left of the leaf: the other children, then the rest of the last one
      refine ⟨es, headLeaves (branch n sep c, n - 1) ++ ls, fs', ?_, ?_, ?_, ?_, hp'⟩
      · rw [rightmost, dif_pos hn, hl]
      · rw [leaves_branch_split n sep c ⟨n - 1, hlt⟩, hls, hlast,
          List.drop_eq_nil_of_le (by simp)]
        simp [headLeaves]
      · rw [ha, leavesAfter, tailLeaves, hlast, List.drop_eq_nil_of_le (by simp)]
        rfl
      · rw [hb, leavesBefore, List.append_assoc]

/-! ### Stepping -/

/-- Step the innermost frame that has a next index, dropping the exhausted
frames above it. -/
def advance : List (Frame κ α) → Option (List (Frame κ α))
  | [] => none
  | (t, i) :: fs => if i + 1 < t.width then some ((t, i + 1) :: fs) else advance fs

/-- Step back the innermost frame whose index is positive, dropping the
frames above it. -/
def retreat : List (Frame κ α) → List (Frame κ α)
  | [] => []
  | (t, i) :: fs => if 0 < i then (t, i - 1) :: fs else retreat fs

theorem tailLeaves_of_exhausted {t : MultiTree κ α} {i : Nat} (h : ¬ i + 1 < t.width) :
    tailLeaves (t, i) = [] := by
  cases t with
  | leaf es => rfl
  | branch n sep c =>
      have : n ≤ i + 1 := by simpa [width] using h
      simp [tailLeaves, List.drop_eq_nil_of_le, this]

/-- If no frame has a next index there is nothing to the right. -/
theorem leavesAfter_of_advance_none {fs : List (Frame κ α)} (h : advance fs = none) :
    leavesAfter fs = [] := by
  induction fs with
  | nil => rfl
  | cons f fs ih =>
      obtain ⟨t, i⟩ := f
      by_cases hi : i + 1 < t.width
      · simp [advance, hi] at h
      · rw [advance, if_neg hi] at h
        rw [leavesAfter, tailLeaves_of_exhausted hi, ih h, List.append_nil]

/-- If some frame below the innermost one steps, it is a branch, and the
child it now points at starts the leaves to the right. -/
theorem advance_some {r : MultiTree κ α} {f : Frame κ α} {fs fs' : List (Frame κ α)}
    (hp : Path r (f :: fs)) (h : advance fs = some fs') :
    ∃ n sep c, ∃ j : Fin n, ∃ rest, fs' = (branch n sep c, (j : Nat)) :: rest ∧
      Path r fs' ∧ leavesAfter fs = (c j).leaves ++ leavesAfter fs' := by
  induction fs generalizing f with
  | nil => simp [advance] at h
  | cons g fs ih =>
      obtain ⟨n, sep, c, i, rfl, -⟩ := hp.tail_branch
      by_cases hi : (i : Nat) + 1 < n
      · rw [advance, if_pos (by simpa [width] using hi)] at h
        obtain rfl := Option.some.inj h
        refine ⟨n, sep, c, ⟨i + 1, hi⟩, fs, rfl, hp.tail.reindex _, ?_⟩
        have hlen : (i : Nat) + 1 < (List.ofFn fun j => (c j).leaves).length := by
          simpa using hi
        simp only [leavesAfter, tailLeaves]
        rw [List.drop_eq_getElem_cons hlen, List.getElem_ofFn]
        simp
      · rw [advance, if_neg (by simpa [width] using hi)] at h
        -- this frame is exhausted and adds nothing to the leaves on the right
        obtain ⟨n', sep', c', j, rest, he, hp', ha⟩ := ih hp.tail h
        refine ⟨n', sep', c', j, rest, he, hp', ?_⟩
        rw [leavesAfter, tailLeaves_of_exhausted (by simpa [width] using hi), List.nil_append,
          ha]

theorem headLeaves_zero (t : MultiTree κ α) : headLeaves (t, 0) = [] := by
  cases t <;> simp [headLeaves]

/-- If every index is zero there is nothing to the left. -/
theorem leavesBefore_of_retreat_nil {fs : List (Frame κ α)} (h : retreat fs = []) :
    leavesBefore fs = [] := by
  induction fs with
  | nil => rfl
  | cons f fs ih =>
      obtain ⟨t, i⟩ := f
      by_cases hi : 0 < i
      · simp [retreat, hi] at h
      · obtain rfl : i = 0 := by omega
        rw [retreat, if_neg hi] at h
        rw [leavesBefore, headLeaves_zero, ih h, List.append_nil]

/-- If some index is positive and no leaf is empty there is an entry to the
left. -/
theorem before_ne_nil_of_retreat {r : MultiTree κ α} {es : List α} {i : Nat}
    {fs : List (Frame κ α)} (hb : r.BranchesNonempty) (hl : r.LeavesNonempty)
    (hp : Path r ((leaf es, i) :: fs)) (h : retreat ((leaf es, i) :: fs) ≠ []) :
    before ((leaf es, i) :: fs) ≠ [] := by
  have hes : es ≠ [] := LeavesNonempty.of_path hl hp
  by_cases hi : 0 < i
  · intro hn
    have : es.take i = [] := (List.append_eq_nil_iff.mp hn).2
    rcases List.take_eq_nil_iff.mp this with h0 | h0
    · omega
    · exact hes h0
  · rw [retreat, if_neg hi] at h
    have key : ∀ (f : Frame κ α) (fs : List (Frame κ α)), Path r (f :: fs) →
        retreat fs ≠ [] → (leavesBefore fs).flatten ≠ [] := by
      intro f fs
      induction fs generalizing f with
      | nil => intro _ hr; exact absurd rfl hr
      | cons g fs ih =>
          intro hp hr
          obtain ⟨n, sep, c, j, rfl, -⟩ := hp.tail_branch
          by_cases hj : 0 < (j : Nat)
          · -- the child left of `j` has a leaf, and that leaf an entry
            have hlt : (j : Nat) - 1 < n := by omega
            have hc := (BranchesNonempty.of_path hb hp.tail).2 ⟨j - 1, hlt⟩
            have hcl := LeavesNonempty.of_path hl hp.tail ⟨j - 1, hlt⟩
            obtain ⟨es', ls, -, -, hls, -⟩ := leftmost_spec _ [] hc (.root 0)
            have hne : es' ≠ [] := hcl.ne_nil es' (by rw [hls]; simp)
            intro hnil
            rw [List.flatten_eq_nil_iff] at hnil
            refine hne (hnil es' ?_)
            simp only [leavesBefore, headLeaves, List.mem_append, List.mem_flatten]
            refine Or.inr ⟨(c ⟨j - 1, hlt⟩).leaves, ?_, by rw [hls]; simp⟩
            rw [List.mem_take_iff_getElem]
            exact ⟨j - 1, by simp; omega, by simp⟩
          · rw [retreat, if_neg hj] at hr
            have := ih _ hp.tail hr
            rw [leavesBefore, List.flatten_append]
            exact fun hnil => this (List.append_eq_nil_iff.mp hnil).1
    intro hn
    exact key _ fs hp h (List.append_eq_nil_iff.mp hn).1

end MultiTree
