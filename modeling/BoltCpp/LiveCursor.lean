/-
BoltCpp/LiveCursor.lean

A cursor while the data changes.

`cursor.h` warns that changing data while traversing with a cursor may make it
return unexpected keys.  In a bucket of nodes it can be said which.  What a
cursor is there is a place in a row of leaves: the number of a leaf and an index
into it (`RowCursor`).  The calls of a cursor, `deleteCurrent`, and updates of
the tree behind its back are steps on the row, and an update changes one leaf
and leaves the place as it is.  Run in lockstep, the cursor and the row answer
alike and fail alike, whatever is called in whatever order (`live_agrees`).
-/
import BoltCpp.CursorRow
import BoltCpp.Lib.Lockstep

namespace BoltCpp

open KeyedList MultiTree

/-! ### Places -/

/-- A leaf, counted from the left, and an index into it.  The index is -1 where
`last` has found an empty leaf. -/
structure Place where
  leaf : Nat
  index : Int
  deriving DecidableEq, Repr

namespace Place

variable (row : List (List Entry))

/-- The entries of the leaf. -/
def here (p : Place) : List Entry := row[p.leaf]?.getD []

/-- The entry at the place. -/
def read (p : Place) : Except Fault (Option Entry) :=
  if (p.here row).length = 0 ∨ p.index ≥ (p.here row).length then pure none
  else do
    let e ← vecAt (p.here row) p.index
    pure (some e)

/-- Over the empty ones of the leaves to the right. -/
def skip : List (List Entry) → Place → Place
  | [], p => p
  | es :: rest, p => if es.length = 0 then skip rest ⟨p.leaf + 1, 0⟩ else ⟨p.leaf + 1, 0⟩

def next (p : Place) : Place :=
  if p.index < (p.here row).length - 1 then { p with index := p.index + 1 }
  else skip (row.drop (p.leaf + 1)) p

/-- The entries right of the place. -/
def after (p : Place) : List Entry :=
  (p.here row).drop (p.index + 1).toNat ++ (row.drop (p.leaf + 1)).flatten

variable {row} {p : Place}

theorem read_of_nonneg (h0 : 0 ≤ p.index) :
    p.read row = .ok (p.here row)[p.index.toNat]? := by
  rw [read]
  by_cases hend : (p.here row).length = 0 ∨ p.index ≥ (p.here row).length
  · rw [if_pos hend, List.getElem?_eq_none (by omega)]
    rfl
  · have hlt : p.index.toNat < (p.here row).length := by omega
    rw [if_neg hend, ← Int.toNat_of_nonneg h0, vecAt_ofNat (List.getElem?_eq_getElem hlt),
      ok_bind, Int.toNat_natCast, List.getElem?_eq_getElem hlt]
    rfl

theorem read_some {e : Entry} (hread : p.read row = .ok (some e)) :
    (p.here row)[p.index.toNat]? = some e := by
  by_cases h0 : 0 ≤ p.index
  · rw [read_of_nonneg h0] at hread
    exact Except.ok.inj hread
  · rw [read, vecAt, if_pos (not_le.mp h0)] at hread
    split at hread <;> cases hread

/-- Inside the leaf. -/
theorem next_inside (hin : p.index < (p.here row).length - 1) :
    p.next row = ⟨p.leaf, p.index + 1⟩ := if_pos hin

theorem next_exhausted (hend : ¬ p.index < (p.here row).length - 1) :
    p.next row = skip (row.drop (p.leaf + 1)) p := if_neg hend

theorem read_next_inside (hlow : -1 ≤ p.index) (hin : p.index < (p.here row).length - 1) :
    (⟨p.leaf, p.index + 1⟩ : Place).read row = .ok (p.after row).head? := by
  have h0 : 0 ≤ p.index + 1 := by omega
  have hlt : (p.index + 1).toNat < (p.here row).length := by omega
  have hget : (p.here row)[(p.index + 1).toNat]? = some (p.here row)[(p.index + 1).toNat] :=
    List.getElem?_eq_getElem hlt
  have hread : (⟨p.leaf, p.index + 1⟩ : Place).read row = .ok (p.here row)[(p.index + 1).toNat]? :=
    read_of_nonneg h0
  rw [hread, after, List.head?_append, List.head?_drop, hget]
  rfl

/-- The leaf right of the place comes first. -/
theorem after_exhausted (hend : ¬ p.index < (p.here row).length - 1) :
    p.after row = (row.drop (p.leaf + 1)).flatten := by
  rw [after, List.drop_eq_nil_of_le (by omega), List.nil_append]

end Place

/-! ### The cursor at a place -/

namespace NodeTree

variable {h : Heap} {b : Bucket} {S : NodeTree} {p : Place} {q : NodePtr} {rest : Cursor.Stack}
  {fuel : Nat}

/-- The stack leads to the leaf `q`, at the place. -/
structure LeadsTo (S : NodeTree) (q : NodePtr) (rest : Cursor.Stack) (p : Place) : Prop where
  leads : Leads S (⟨none, some q, p.index⟩ :: rest) (leaf q) p.leaf
  low : -1 ≤ p.index

theorem LeadsTo.here (hl : LeadsTo S q rest p) (h : Heap) :
    p.here (S.row h) = (h.node q).inodes.map INode.entry := by
  rw [Place.here, hl.leads.row_eq h, Option.getD_some]

theorem LeadsTo.isLeaf (hl : LeadsTo S q rest p) (hS : S.Fits h b) :
    (h.node q).isLeaf_ = true := hl.leads.fits hS

theorem keyValue_lands (hl : LeadsTo S q rest p) (h : Heap) :
    Cursor.keyValue h (⟨none, some q, p.index⟩ :: rest)
      = p.read (S.row h) >>= fun e => pure (keyValueOf e) := by
  rw [Cursor.keyValue, Cursor.back, pure_bind, count_node, ok_bind, Place.read, hl.here h,
    List.length_map]
  by_cases hend : ((h.node q).inodes.length : Int) = 0 ∨ p.index ≥ (h.node q).inodes.length
  · rw [if_pos hend, if_pos (by omega)]
    rfl
  · rw [if_neg hend, if_neg (by omega)]
    simp only [vecAt, List.getElem?_map]
    by_cases hneg : p.index < 0
    · rw [if_pos hneg, if_pos hneg]
      rfl
    · rw [if_neg hneg, if_neg hneg]
      cases (h.node q).inodes[p.index.toNat]? with
      | none => rfl
      | some x => rfl

/-- The row from the next leaf on. -/
theorem drop_row {a : Nat} {stack : Cursor.Stack} (hl : Leads S stack (leaf q) a) (h : Heap) :
    (S.row h).drop a = (h.node q).inodes.map INode.entry :: (S.row h).drop (a + 1) := by
  obtain ⟨hlt, heq⟩ := List.getElem?_eq_some_iff.mp (hl.row_eq h)
  rw [List.drop_eq_getElem_cons hlt, heq]

/-- **Out of the leaf**: to the first index of the next one, or there is none. -/
theorem nextLeaf_lands (hS : S.Fits h b) (hne : (S.contents h).BranchesNonempty)
    (hfuel : (S.contents h).size < fuel) (hl : LeadsTo S q rest p)
    (hend : ¬ p.index < (h.node q).inodes.length - 1) :
    (∃ stack₁ q₁ rest₁, Cursor.stepForward h (⟨none, some q, p.index⟩ :: rest)
          = .ok (some stack₁) ∧
        Cursor.first_ h b fuel stack₁ = .ok (⟨none, some q₁, 0⟩ :: rest₁) ∧
        LeadsTo S q₁ rest₁ ⟨p.leaf + 1, 0⟩) ∨
      (Cursor.stepForward h (⟨none, some q, p.index⟩ :: rest) = .ok none ∧
        (S.row h).drop (p.leaf + 1) = []) := by
  obtain ⟨k, rfl⟩ : ∃ k, fuel = k + 1 := ⟨fuel - 1, by omega⟩
  rw [Cursor.stepForward, count_node, ok_bind, if_neg hend]
  rcases stepForward_lands hS hl.leads rfl with
    ⟨q₁, n, child, i, rest₁, a, hforward, hl₁, hnumber⟩ | ⟨hforward, hlast⟩
  · have hsize := size_child_lt n (fun i : Fin n => (inodeAt (h.node q₁) i).key)
      (fun i => (child i).contents h) i
    have hle := hl₁.size_le (h := h)
    simp only [contents] at hle
    have hk : ((child i).contents h).size ≤ k := by omega
    obtain ⟨q₂, rest₂, hfirst, hl₂⟩ := first_lands hS (child i) (.child hl₁ 0)
      ((hl₁.nonempty hne).2 i) hk
    rw [hnumber] at hl₂
    exact Or.inl ⟨_, q₂, rest₂, hforward, (first_round (hl₁.fits hS) i rest₁ k).trans hfirst, hl₂,
      by show (-1 : Int) ≤ 0; decide⟩
  · refine Or.inr ⟨hforward, List.drop_eq_nil_of_le ?_⟩
    rw [length_row]
    exact Nat.le_of_eq hlast.symm

/-- **`next_` steps to the next place**, over any number of empty leaves. -/
theorem nextLoop_lands (hS : S.Fits h b) (hne : (S.contents h).BranchesNonempty)
    (hfuel : (S.contents h).size < fuel) :
    ∀ (restarts : Nat) {q : NodePtr} {rest : Cursor.Stack} {p : Place}, LeadsTo S q rest p →
      S.leafCount ≤ p.leaf + restarts →
      ∃ q' rest', Cursor.nextLoop h b fuel restarts (⟨none, some q, p.index⟩ :: rest)
          = .ok (⟨none, some q', (p.next (S.row h)).index⟩ :: rest',
              keyValueOf (p.after (S.row h)).head?) ∧
        LeadsTo S q' rest' (p.next (S.row h)) := by
  intro restarts
  induction restarts with
  | zero => exact fun hl hr => absurd hl.leads.lt (by omega)
  | succ restarts ih =>
      intro q rest p hl hr
      have hlen : (p.here (S.row h)).length = (h.node q).inodes.length := by
        rw [hl.here h, List.length_map]
      have hlow := hl.low
      by_cases hin : p.index < (h.node q).inodes.length - 1
      · -- inside the leaf, where `first_` stays
        have hin' : p.index < (p.here (S.row h)).length - 1 := by rwa [hlen]
        have hl' : LeadsTo S q rest ⟨p.leaf, p.index + 1⟩ :=
          ⟨hl.leads.reindex _, by show -1 ≤ p.index + 1; omega⟩
        have hkv := keyValue_lands hl' h
        rw [Place.read_next_inside hlow hin', ok_bind] at hkv
        rw [Place.next_inside hin']
        refine ⟨q, rest, ?_, hl'⟩
        obtain ⟨k, rfl⟩ : ∃ k, fuel = k + 1 := ⟨fuel - 1, by omega⟩
        have hcount : ¬ ((h.node q).inodes.length : Int) = 0 := by omega
        simp only [Cursor.nextLoop, Cursor.stepForward, count_node, ok_bind, if_pos hin, pure_bind,
          Cursor.first_, Cursor.back, isLeaf_node, hl.isLeaf hS, if_true, if_neg hcount, hkv]
        rfl
      have hend : ¬ p.index < (p.here (S.row h)).length - 1 := by rwa [hlen]
      rw [Place.after_exhausted hend, Place.next_exhausted hend]
      rcases nextLeaf_lands hS hne hfuel hl hin with
        ⟨stack₁, q₁, rest₁, hforward, hfirst, hl₁⟩ | ⟨hforward, hlast⟩
      · rw [drop_row hl₁.leads h, Place.skip, List.length_map, List.flatten_cons]
        by_cases hempty : (h.node q₁).inodes.length = 0
        · -- an empty leaf: restart from there
          have hend₁ : ¬ (⟨p.leaf + 1, 0⟩ : Place).index
              < (Place.here (S.row h) ⟨p.leaf + 1, 0⟩).length - 1 := by
            rw [hl₁.here h, List.length_map, hempty]
            show ¬ (0 : Int) < 0 - 1
            decide
          obtain ⟨q', rest', hrun, hl'⟩ := ih hl₁ (by
            show S.leafCount ≤ p.leaf + 1 + restarts
            omega)
          rw [Place.after_exhausted hend₁, Place.next_exhausted hend₁] at hrun
          rw [Place.next_exhausted hend₁] at hl'
          rw [if_pos hempty, List.length_eq_zero_iff.mp hempty, List.map_nil, List.nil_append]
          refine ⟨q', rest', ?_, hl'⟩
          simp only [Cursor.nextLoop, hforward, ok_bind, hfirst, Cursor.back, pure_bind,
            count_node, hempty]
          exact hrun
        · have hkv := keyValue_lands hl₁ h
          rw [Place.read_of_nonneg (Int.le_refl 0), ok_bind, hl₁.here h] at hkv
          obtain ⟨x, xs, hxs⟩ := List.exists_cons_of_length_pos (Nat.pos_of_ne_zero hempty)
          rw [if_neg hempty]
          refine ⟨q₁, rest₁, ?_, hl₁⟩
          simp only [Cursor.nextLoop, hforward, ok_bind, hfirst, Cursor.back, pure_bind,
            count_node, hkv, hxs]
          rfl
      · -- nothing to the right: the stack is not touched
        rw [hlast]
        refine ⟨q, rest, ?_, hl⟩
        simp only [Cursor.nextLoop, hforward, ok_bind]
        rfl

theorem next_lands (hS : S.Holds h b) (hfuel : (S.contents h).size < fuel)
    (hl : LeadsTo S q rest p) :
    ∃ q' rest', Cursor.next_ h b fuel (⟨none, some q, p.index⟩ :: rest)
        = .ok (⟨none, some q', (p.next (S.row h)).index⟩ :: rest',
            keyValueOf (p.after (S.row h)).head?) ∧
      LeadsTo S q' rest' (p.next (S.row h)) := by
  have hcount := length_leaves_le_size (S.contents h)
  rw [length_leaves] at hcount
  rw [Cursor.next_, if_pos (show (_ :: rest).length > 0 from Nat.succ_pos _)]
  exact nextLoop_lands hS.fits hS.nonempty hfuel fuel hl (by omega)

/-! ### When nothing is left of a stack -/

theorem leafCount_pos {T : NodeTree} (hne : (T.contents h).BranchesNonempty) :
    0 < T.leafCount := by
  rw [← length_leaves h]
  exact Nat.lt_of_le_of_lt (Nat.zero_le _) (leafOf_lt (k := []) hne)

theorem countLeft_eq_zero {p : NodePtr} {n : Nat} {child : Fin n → NodeTree}
    (hne : ((branch p n child).contents h).BranchesNonempty) (i : Fin n) :
    countLeft child i = 0 ↔ (i : Nat) = 0 := by
  obtain ⟨i, hi⟩ := i
  cases i with
  | zero => exact iff_of_true (countLeft_zero child) rfl
  | succ i =>
      let c : Fin n := ⟨i, Nat.lt_of_succ_lt hi⟩
      have hsucc : countLeft child (i + 1) = countLeft child i + (child c).leafCount :=
        countLeft_succ child c
      have hpos : 0 < (child c).leafCount := leafCount_pos (hne.2 c)
      refine iff_of_false ?_ (Nat.succ_ne_zero i)
      show ¬ countLeft child (i + 1) = 0
      omega

/-- No index below the first one can be stepped back exactly if no leaf lies to
the left. -/
theorem Leads.front {T : NodeTree} {stack : Cursor.Stack} {a : Nat} (hl : Leads S stack T a)
    (hne : (S.contents h).BranchesNonempty) :
    ∀ {ref rest}, stack = ref :: rest → (Cursor.AtFront rest ↔ a = 0) := by
  induction hl with
  | root j =>
      rintro ref rest ⟨⟩
      exact iff_of_true (fun _ h => absurd h List.not_mem_nil) rfl
  | @child rest q n child a i hl j ih =>
      rintro ref rest ⟨⟩
      rw [Cursor.AtFront, List.forall_mem_cons, Nat.add_eq_zero_iff,
        countLeft_eq_zero (hl.nonempty hne) i, ← ih rfl]
      refine and_comm.trans (and_congr Iff.rfl ?_)
      show ((i : Nat) : Int) ≤ 0 ↔ _
      omega

theorem LeadsTo.front (hl : LeadsTo S q rest p) (hne : (S.contents h).BranchesNonempty) :
    Cursor.AtFront (⟨none, some q, p.index⟩ :: rest) ↔ p.leaf = 0 ∧ p.index ≤ 0 := by
  rw [Cursor.AtFront, List.forall_mem_cons, and_comm]
  exact and_congr (hl.leads.front hne rfl) Iff.rfl

end NodeTree

/-! ### Calls on a row -/

namespace Place

/-- The first entry, if the first leaf has one. -/
def first (row : List (List Entry)) : Place :=
  if (here row ⟨0, 0⟩).length = 0 then next row ⟨0, 0⟩ else ⟨0, 0⟩

def last (row : List (List Entry)) : Place :=
  ⟨row.length - 1, (here row ⟨row.length - 1, 0⟩).length - 1⟩

/-- At the lower bound of the key in the leaf for it, or behind. -/
def seek (route : Slice → Nat) (row : List (List Entry)) (key : Slice) : Place :=
  let es := here row ⟨route key, 0⟩
  let p : Place := ⟨route key, lowerBound Entry.key es key⟩
  if p.index ≥ es.length then next row p else p

/-- The entry found there. -/
def arrive (row : List (List Entry)) (p : Place) : Except Fault (Option Place × Pair) := do
  let e ← p.read row
  pure (some p, pairOf e)

/-- What the calls of a cursor are on a row of leaves; no place is left when
`prev` has run off the front.  A `seek` returns nil whatever it finds. -/
def call (route : Slice → Nat) (row : List (List Entry)) (place : Option Place) :
    Cursor.Call → Except Fault (Option Place × Pair)
  | .first => arrive row (first row)
  | .last => arrive row (last row)
  | .next =>
      match place with
      | none => throw (.assertion "this->stack_.size() > 0")
      | some p => pure (some (p.next row), pairOf (p.after row).head?)
  | .prev =>
      match place with
      | none => pure (none, none, none)
      | some p =>
          if p.leaf = 0 ∧ p.index ≤ 0 then pure (none, none, none) else arrive row (last row)
  | .seek key _ => pure (some (seek route row key), none, none)
  | .keyValue =>
      match place with
      | none => throw .emptyBack
      | some p => arrive row p

end Place

namespace NodeTree

variable {h : Heap} {b : Bucket} {S : NodeTree} {p : Place} {q : NodePtr} {rest : Cursor.Stack}
  {fuel : Nat}

/-- The stack of a cursor at the place, empty if there is none. -/
inductive Rests (S : NodeTree) : Cursor.Stack → Option Place → Prop
  | lost : Rests S [] none
  | place {q : NodePtr} {rest : Cursor.Stack} {p : Place} (hl : LeadsTo S q rest p) :
      Rests S (⟨none, some q, p.index⟩ :: rest) (some p)

/-- At a place of the shape, with the same pair. -/
abbrev SameAnswer (S : NodeTree) (r : Cursor.Stack × Pair) (r' : Option Place × Pair) : Prop :=
  Rests S r.1 r'.1 ∧ r.2 = r'.2

theorem arrive_agrees (hl : LeadsTo S q rest p) (h : Heap) :
    Lockstep (SameAnswer S)
      (Cursor.keyValue h (⟨none, some q, p.index⟩ :: rest) >>= fun kv =>
        pure (⟨none, some q, p.index⟩ :: rest, Cursor.toPair kv))
      (Place.arrive (S.row h) p) := by
  rw [keyValue_lands hl h, bind_assoc]
  exact .bind_self fun e _ => .ok ⟨.place hl, toPair_keyValueOf e⟩

theorem first_agrees (hS : S.Holds h b) (hfuel : (S.contents h).size < fuel)
    (stack₀ : Cursor.Stack) :
    Lockstep (SameAnswer S) (Cursor.first h b fuel stack₀)
      (Place.arrive (S.row h) (Place.first (S.row h))) := by
  obtain ⟨q, rest, hfirst, hl⟩ := first_lands hS.fits S (.root 0) hS.nonempty
    (Nat.le_of_lt hfuel)
  have hl : LeadsTo S q rest ⟨0, 0⟩ := ⟨hl, by show (-1 : Int) ≤ 0; decide⟩
  simp only [Cursor.first, Cursor.assertOpen_ok (hS.hasTree nodeLayout), hS.root, ok_bind, hfirst,
    Cursor.back, pure_bind, count_node, Place.first, hl.here h, List.length_map]
  by_cases hempty : (h.node q).inodes.length = 0
  · -- an empty first leaf: `next_` looks for another one
    obtain ⟨q', rest', hnext, hl'⟩ := next_lands hS hfuel hl
    rw [if_pos (by omega), if_pos hempty, hnext]
    exact arrive_agrees hl' h
  · rw [if_neg (by omega), if_neg hempty]
    exact arrive_agrees hl h

theorem last_agrees (hS : S.Holds h b) (hfuel : (S.contents h).size < fuel)
    (stack₀ : Cursor.Stack) :
    ∃ q rest, LeadsTo S q rest (Place.last (S.row h)) ∧
      Cursor.last h b fuel stack₀
        = (Cursor.keyValue h (⟨none, some q, (Place.last (S.row h)).index⟩ :: rest) >>= fun kv =>
            pure (⟨none, some q, (Place.last (S.row h)).index⟩ :: rest, Cursor.toPair kv)) := by
  obtain ⟨q, rest, a, hlast, hl, ha⟩ := last_lands hS.fits S (.root _) hS.nonempty
    (Nat.le_of_lt hfuel)
  have hleaf : (S.row h).length - 1 = a := by
    rw [length_row]
    omega
  have hl₀ : LeadsTo S q rest ⟨a, 0⟩ := ⟨hl.reindex 0, by show (-1 : Int) ≤ 0; decide⟩
  have hplace : Place.last (S.row h) = ⟨a, lastIndex h q⟩ := by
    rw [Place.last, hleaf, hl₀.here h, List.length_map, lastIndex]
  rw [hplace]
  refine ⟨q, rest, ⟨hl, by show -1 ≤ lastIndex h q; rw [lastIndex]; omega⟩, ?_⟩
  simp only [Cursor.last, Cursor.assertOpen_ok (hS.hasTree nodeLayout), hS.root, ok_bind,
    count_node]
  rw [← lastIndex, hlast]
  rfl

theorem seek_agrees (hS : S.Holds h b) (hfuel : (S.contents h).size < fuel) (vec : Nat → Nat)
    (key : Slice) (stack₀ : Cursor.Stack) :
    ∃ stack, Cursor.seek h b vec fuel key stack₀ = .ok (stack, none, none) ∧
      Rests S stack (some (Place.seek (S.contents h).leafOf (S.row h) key)) := by
  obtain ⟨q, rest, hsearch, hl⟩ := search_lands hS.fits vec key S hS.root (.root 0) hS.ordered
    hS.nonempty (Nat.le_of_lt hfuel)
  rw [Nat.zero_add] at hl
  obtain ⟨i, hi⟩ : ∃ i, Node.lowerBound (h.node q).inodes key = i := ⟨_, rfl⟩
  rw [hi] at hsearch hl
  have hl : LeadsTo S q rest ⟨(S.contents h).leafOf key, (i : Nat)⟩ :=
    ⟨hl, by show -1 ≤ (i : Int); omega⟩
  have hhere := hl.here h
  have hplace : Place.seek (S.contents h).leafOf (S.row h) key
      = if (i : Int) ≥ (h.node q).inodes.length
        then Place.next (S.row h) ⟨(S.contents h).leafOf key, (i : Nat)⟩
        else ⟨(S.contents h).leafOf key, (i : Nat)⟩ := by
    have hsame : Place.here (S.row h) ⟨(S.contents h).leafOf key, 0⟩
        = (h.node q).inodes.map INode.entry := hhere
    rw [Place.seek, hsame, ← Cursor.lowerBound_entries rfl, hi, List.length_map]
  rw [hplace]
  by_cases hend : (i : Int) ≥ (h.node q).inodes.length
  · -- past the end of the leaf
    obtain ⟨q', rest', hnext, hl'⟩ := next_lands hS hfuel hl
    rw [if_pos hend]
    refine ⟨_, ?_, .place hl'⟩
    simp only [Cursor.seek, Cursor.seek_, Cursor.assertOpen_ok (hS.hasTree nodeLayout), ok_bind,
      hsearch, Cursor.back, pure_bind, count_node, if_pos hend, hnext]
    cases (Place.after (S.row h) ⟨(S.contents h).leafOf key, (i : Nat)⟩).head? with
    | none => rfl
    | some e => rfl
  · have hlt : i < (Place.here (S.row h) ⟨(S.contents h).leafOf key, (i : Nat)⟩).length := by
      rw [hhere, List.length_map]
      omega
    have hkv := keyValue_lands hl h
    rw [Place.read_of_nonneg (Int.natCast_nonneg i), Int.toNat_natCast,
      List.getElem?_eq_getElem hlt, ok_bind] at hkv
    rw [if_neg hend]
    refine ⟨_, ?_, .place hl⟩
    simp only [Cursor.seek, Cursor.seek_, Cursor.assertOpen_ok (hS.hasTree nodeLayout), ok_bind,
      hsearch, Cursor.back, pure_bind, count_node, if_neg hend, hkv]
    rfl

/-- **A call of the cursor is one on the row.** -/
theorem call_agrees (hS : S.Holds h b) (hfuel : (S.contents h).size < fuel)
    {stack : Cursor.Stack} {place : Option Place} (hr : Rests S stack place) (c : Cursor.Call) :
    Lockstep (SameAnswer S) (Cursor.call h b fuel stack c)
      (Place.call (S.contents h).leafOf (S.row h) place c) := by
  have hopen := Cursor.assertOpen_ok (hS.hasTree nodeLayout)
  cases c with
  | first => exact first_agrees hS hfuel stack
  | last =>
      obtain ⟨q, rest, hl, hlast⟩ := last_agrees hS hfuel stack
      rw [Cursor.call, hlast]
      exact arrive_agrees hl h
  | next =>
      simp only [Cursor.call, Cursor.next, hopen, ok_bind]
      cases hr with
      | lost => exact .error _
      | place hl =>
          obtain ⟨q', rest', hnext, hl'⟩ := next_lands hS hfuel hl
          rw [hnext]
          exact .ok ⟨.place hl', toPair_keyValueOf _⟩
  | prev =>
      simp only [Cursor.call, Cursor.prev, hopen, ok_bind]
      cases hr with
      | lost => exact .ok ⟨.lost, rfl⟩
      | @place q rest p hl =>
          have hnil := (Cursor.stepBack_eq_nil_iff (⟨none, some q, p.index⟩ :: rest)).trans
            (hl.front hS.nonempty)
          rw [Place.call]
          by_cases hfront : p.leaf = 0 ∧ p.index ≤ 0
          · rw [if_pos hfront, hnil.mpr hfront]
            exact .ok ⟨.lost, rfl⟩
          · -- the public `last` does the rest, and the entry is read once more
            obtain ⟨q', rest', hl', hlast⟩ := last_agrees hS hfuel
              (Cursor.stepBack (⟨none, some q, p.index⟩ :: rest))
            have hagrees := arrive_agrees hl' h
            rw [if_neg hfront, if_neg fun h => hfront (hnil.mp (List.length_eq_zero_iff.mp h)),
              hlast]
            rcases hkv : Cursor.keyValue h (⟨none, some q', (Place.last (S.row h)).index⟩ :: rest')
              with e | kv
            · rw [hkv] at hagrees
              exact hagrees
            · rw [hkv] at hagrees
              simp only [ok_bind, pure_bind, hkv]
              exact hagrees
  | seek key vec =>
      obtain ⟨stack', hseek, hr'⟩ := seek_agrees hS hfuel vec key stack
      rw [Cursor.call, hseek]
      exact .ok ⟨hr', rfl⟩
  | keyValue =>
      cases hr with
      | lost => exact .error _
      | place hl => exact arrive_agrees hl h

end NodeTree

/-! ### Changes in between -/

namespace Cursor

/-- What happens while a cursor is in use. -/
inductive Turn where
  | call (c : Call)
  | deleteCurrent
  /-- `put` or `del` where another cursor has sought the key -/
  | update (op : Node.Op)

/-- What comes of it. -/
inductive Reply where
  | pair (p : Pair)
  | deleted
  /-- an exception; nothing is changed -/
  | refused
  | updated
  deriving DecidableEq, Repr

section

variable (b : Bucket) (tx : Transaction) (materialise : Pgid → Option NodePtr → Option NodePtr)
  (vec : Nat → Nat) (pgid : Pgid) (fuel : Nat)

def turn (h : Heap) (stack : Stack) : Turn → Except Fault (Heap × Stack × Reply)
  | .call c => do
      let (stack, pair) ← call h b fuel stack c
      pure (h, stack, .pair pair)
  | .deleteCurrent =>
      match deleteCurrent tx materialise fuel stack h with
      | .ok () h => pure (h, stack, .deleted)
      | .error (.fault f) _ => throw f
      | .error _ h => pure (h, stack, .refused)
  | .update op => do
      let h ← runUpdate b vec fuel pgid h op
      pure (h, stack, .updated)

def turns : List Turn → Heap → Stack → Except Fault (Heap × Stack × List Reply)
  | [], h, stack => pure (h, stack, [])
  | e :: es, h, stack => do
      let (h, stack, reply) ← turn b tx materialise vec pgid fuel h stack e
      let (h, stack, replies) ← turns es h stack
      pure (h, stack, reply :: replies)

end

/-- `deleteCurrent` is not refused at once. -/
def mayWrite (tx : Transaction) : Bool := tx.db_.isSome && tx.writable_

end Cursor

open Cursor (Turn Reply)

/-- A row of leaves and a place in it. -/
structure RowCursor where
  leaves : List (List Entry)
  place : Option Place
  deriving DecidableEq, Repr

namespace RowCursor

section

variable (route : Slice → Nat) (deep : Nat → Bool) (writes : Bool)

/-- The entry at the place goes, and the place stays. -/
def deleteCurrent (r : RowCursor) : Except Fault (RowCursor × Reply) :=
  if !writes then pure (r, .refused)
  else
    match r.place with
    | none => throw .emptyBack
    | some p => do
        let e ← p.read r.leaves
        if (keyValueOf e).2.2 &&& BucketLeafFlag ≠ 0 then pure (r, .refused)
        else if !deep p.leaf then throw (.assertion "this->stack_.size() > 9")
        else
          match e with
          | none => pure (r, .refused)
          | some e =>
              if e.key = [] then throw (.exit "del: zero-length key\n")
              else
                let leaves := r.leaves.modify p.leaf fun es => es.eraseIdx p.index.toNat
                pure ({ r with leaves := leaves }, .deleted)

def step (r : RowCursor) : Turn → Except Fault (RowCursor × Reply)
  | .call c => do
      let (place, pair) ← Place.call route r.leaves r.place c
      pure ({ r with place := place }, .pair pair)
  | .deleteCurrent => r.deleteCurrent deep writes
  | .update op =>
      pure ({ r with leaves := r.leaves.modify (route op.key) op.entries }, .updated)

def run : List Turn → RowCursor → Except Fault (RowCursor × List Reply)
  | [], r => pure (r, [])
  | e :: es, r => do
      let (r, reply) ← step route deep writes r e
      let (r, replies) ← run es r
      pure (r, reply :: replies)

end

end RowCursor

namespace NodeTree

/-- Leaf `a` is ten levels down or more. -/
def deep (S : NodeTree) (a : Nat) : Bool := ((S.levels 1)[a]?).any fun q => 9 < q.2

/-- The cursor on the heap is the one on the row; `h₀` is the heap at first. -/
structure Shows (S : NodeTree) (b : Bucket) (fuel : Nat) (route : Slice → Nat) (h₀ h : Heap)
    (stack : Cursor.Stack) (r : RowCursor) : Prop where
  holds : S.Holds h b
  size : (S.contents h).size < fuel
  route : ∀ key, (S.contents h).leafOf key = route key
  leaves : S.row h = r.leaves
  rests : Rests S stack r.place
  mem : h.mem = h₀.mem
  others : ∀ m ∉ S.ptrs, h.node m = h₀.node m

variable {h₀ h : Heap} {b : Bucket} {S : NodeTree} {route : Slice → Nat} {fuel : Nat}
  {stack : Cursor.Stack} {r : RowCursor} {tx : Transaction}
  {materialise : Pgid → Option NodePtr → Option NodePtr} {vec : Nat → Nat} {pgid : Pgid}

/-- The same cursor, with the same reply. -/
abbrev SameReply (S : NodeTree) (b : Bucket) (fuel : Nat) (route : Slice → Nat) (h₀ : Heap)
    (x : Heap × Cursor.Stack × Reply) (y : RowCursor × Reply) : Prop :=
  Shows S b fuel route h₀ x.1 x.2.1 y.1 ∧ x.2.2 = y.2

/-- **An update of the tree is one of its leaf**, and the stack stays. -/
theorem Shows.update (hs : Shows S b fuel route h₀ h stack r) {q : NodePtr} (hq : q ∈ S.ptrs)
    {nd : Node} {key : Slice} {f : List Entry → List Entry}
    (hcontents : S.contents (h.setNode q nd) = (S.contents h).update key f)
    (hholds : S.Holds (h.setNode q nd) b) :
    Shows S b fuel route h₀ (h.setNode q nd) stack
      { r with leaves := r.leaves.modify (route key) f } := by
  refine ⟨hholds, ?_, fun k => ?_, ?_, hs.rests, hs.mem, fun m hm => ?_⟩
  · rw [hcontents, size_update]
    exact hs.size
  · rw [hcontents, leafOf_update hs.holds.nonempty]
    exact hs.route k
  · rw [← leaves_eq_row, hcontents, leaves_update hs.holds.nonempty, leaves_eq_row, hs.leaves,
      hs.route]
  · rw [Heap.setNode_node_of_ne, hs.others m hm]
    rintro rfl
    exact hm hq

/-- The node of the cursor, if it is ten levels down. -/
theorem node_lands (hS : S.Fits h b) {p : Place} {q : NodePtr} {rest : Cursor.Stack}
    (hl : LeadsTo S q rest p) :
    Cursor.node h materialise fuel (⟨none, some q, p.index⟩ :: rest)
      = if !S.deep p.leaf then .error (.assertion "this->stack_.size() > 9") else .ok q := by
  have hdeep : S.deep p.leaf = decide (9 < rest.length + 1) := by
    rw [deep, hl.leads.level]
    rfl
  rw [Cursor.node, hdeep, List.length_cons]
  by_cases hlen : rest.length + 1 > 9
  · rw [if_pos hlen, decide_eq_true hlen]
    simp only [Cursor.back, pure_bind, isLeaf_node, hl.isLeaf hS, ok_bind]
    rfl
  · rw [if_neg hlen, decide_eq_false hlen]
    rfl

/-- A deletion that is refused at once. -/
theorem turn_refused (h : Heap) (stack : Cursor.Stack) (hwrite : Cursor.mayWrite tx = false) :
    Cursor.turn b tx materialise vec pgid fuel h stack .deleteCurrent
      = .ok (h, stack, .refused) := by
  rw [Cursor.turn, Cursor.deleteCurrent]
  by_cases hclosed : tx.db_.isNone = true
  · rw [if_pos hclosed]
    rfl
  · have hreader : tx.writable_ = false := by
      simpa [Cursor.mayWrite, Option.isSome_iff_ne_none, Option.isNone_iff_eq_none.not.mp hclosed]
        using hwrite
    rw [if_neg hclosed, hreader]
    rfl

/-- A deletion by a writer, with the state spelt out. -/
theorem turn_delete (h : Heap) (stack : Cursor.Stack) (hwrite : Cursor.mayWrite tx = true) :
    Cursor.turn b tx materialise vec pgid fuel h stack .deleteCurrent
      = (do
          let kv ← Cursor.keyValue h stack
          if kv.2.2 &&& BucketLeafFlag ≠ 0 then pure (h, stack, .refused)
          else do
            let n ← Cursor.node h materialise fuel stack
            match kv.1 with
            | none => pure (h, stack, .refused)
            | some key => do
                let nd ← (h.node n).del key
                pure (h.setNode n nd, stack, .deleted)) := by
  have hget : (get : EStateM Cursor.DeleteStop Heap Heap) h = .ok h h := rfl
  obtain ⟨hopen, hwriter⟩ := Bool.and_eq_true_iff.mp hwrite
  have hclosed : ¬ tx.db_.isNone = true := by
    rw [Option.isNone_iff_eq_none, ← Option.not_isSome_iff_eq_none]
    exact not_not.mpr hopen
  rw [Cursor.turn, Cursor.deleteCurrent, if_neg hclosed, hwriter, Bool.not_true,
    if_neg Bool.false_ne_true, bind_ok hget]
  rcases hkv : Cursor.keyValue h stack with e | ⟨key, value, flags⟩
  · rw [bind_error (Cursor.reading_error e h)]
    rfl
  rw [bind_ok (Cursor.reading_ok _ h), ok_bind]
  by_cases hbucket : flags &&& BucketLeafFlag ≠ 0
  · simp only [if_pos hbucket]
    rfl
  simp only [if_neg hbucket]
  rcases hnode : Cursor.node h materialise fuel stack with e | n
  · rw [bind_error (Cursor.reading_error e h)]
    rfl
  rw [bind_ok (Cursor.reading_ok n h), ok_bind]
  rcases key with - | key
  · rfl
  rcases hdel : (h.node n).del key with e | nd
  · simp only [hdel]
    rfl
  · simp only [hdel]
    rfl

/-- `del` of an entry of a leaf in order. -/
theorem del_entry {nd : Node} (hsorted : Sorted INode.key nd.inodes) {i : Nat} {e : Entry}
    (he : (nd.inodes.map INode.entry)[i]? = some e) :
    if e.key = [] then nd.del e.key = .error (.exit "del: zero-length key\n")
    else ∃ nd', nd.del e.key = .ok nd' ∧ nd'.isLeaf_ = nd.isLeaf_ ∧
      nd'.inodes.map INode.entry = (nd.inodes.map INode.entry).eraseIdx i ∧
      nd'.inodes.map INode.entry = erase Entry.key e.key (nd.inodes.map INode.entry) := by
  split
  · rename_i hkey
    rw [hkey]
    rfl
  · rename_i hkey
    obtain ⟨hleaf, hentries⟩ := Cursor.del_entries hsorted (Node.del_eq hsorted hkey)
    have hes : Sorted Entry.key (nd.inodes.map INode.entry) := sorted_entries_iff.mpr hsorted
    have hmem : e ∈ nd.inodes.map INode.entry := List.mem_of_getElem? he
    refine ⟨_, Node.del_eq hsorted hkey, hleaf, ?_, hentries⟩
    rw [hentries, ← hes.eraseIdx_lowerBound hmem, hes.lowerBound_of_getElem? he,
      List.eraseIdx_eq_take_drop_succ]

/-- **`deleteCurrent` on the heap is `deleteCurrent` on the row.** -/
theorem deleteCurrent_agrees (hs : Shows S b fuel route h₀ h stack r) :
    Lockstep (SameReply S b fuel route h₀)
      (Cursor.turn b tx materialise vec pgid fuel h stack .deleteCurrent)
      (r.deleteCurrent S.deep (Cursor.mayWrite tx)) := by
  rw [RowCursor.deleteCurrent]
  rcases hwrite : Cursor.mayWrite tx
  · rw [turn_refused h stack hwrite]
    exact .ok ⟨hs, rfl⟩
  rw [turn_delete h stack hwrite]
  obtain ⟨leaves, place⟩ := r
  cases hs.rests with
  | lost => exact .error _
  | @place q rest p hl =>
      rw [keyValue_lands hl h, hs.leaves, bind_assoc]
      refine .bind_self fun e he => ?_
      rw [pure_bind]
      refine .ite (fun _ => .ok ⟨hs, rfl⟩) fun _ => ?_
      rw [node_lands hs.holds.fits hl]
      by_cases hdeep : (!S.deep p.leaf) = true
      · rw [if_pos hdeep, if_pos hdeep]
        exact .error _
      rw [if_neg hdeep, if_neg hdeep, ok_bind]
      rcases e with - | e
      · exact .ok ⟨hs, rfl⟩
      -- the entry is routed to the leaf it is in
      have hentry := Place.read_some he
      rw [← hs.leaves, hl.here h] at hentry
      have hmem : e ∈ ((leaf q).contents h).elements := by
        rw [contents, elements_leaf]
        exact List.mem_of_getElem? hentry
      obtain ⟨hsorted, hroutes⟩ := hl.leads.routes hs.holds.ordered
      obtain ⟨hleafOf, hroute⟩ := hroutes e hmem
      have hroute := hroute q (.leaf q)
      have hnumber : route e.key = p.leaf := (hs.route e.key).symm.trans hleafOf
      have hdel := del_entry (sorted_entries_iff.mp hsorted) hentry
      simp only [keyValueOf]
      by_cases hkey : e.key = []
      · rw [if_pos hkey] at hdel
        rw [if_pos hkey, hdel]
        exact .error _
      · rw [if_neg hkey] at hdel
        obtain ⟨nd, hdel, hleaf, hindex, hentries⟩ := hdel
        rw [if_neg hkey, hdel]
        obtain ⟨hcontents, hholds⟩ := hs.holds.setNode hroute (localAt_erase e.key) hleaf hentries
        have hs' := hs.update hroute.mem_ptrs hcontents hholds
        have hsame : leaves.modify (route e.key) (erase Entry.key e.key)
            = leaves.modify p.leaf fun es => es.eraseIdx p.index.toNat := by
          rw [hnumber]
          refine modify_congr fun es hes => ?_
          have hrow := hl.leads.row_eq h
          rw [hs.leaves, hes] at hrow
          rw [Option.some.inj hrow, ← hentries, hindex]
        rw [hsame] at hs'
        exact .ok ⟨hs', rfl⟩

/-- **One turn.** -/
theorem turn_agrees (hs : Shows S b fuel route h₀ h stack r) {t : Turn}
    (ht : ∀ op, t = .update op → op.Valid pgid) :
    Lockstep (SameReply S b fuel route h₀)
      (Cursor.turn b tx materialise vec pgid fuel h stack t)
      (r.step route S.deep (Cursor.mayWrite tx) t) := by
  cases t with
  | call c =>
      have hroute : (S.contents h).leafOf = route := funext hs.route
      have hagrees := call_agrees hs.holds hs.size hs.rests c
      rw [hroute, hs.leaves] at hagrees
      refine .bind hagrees fun x y hxy => .ok ⟨⟨hs.holds, hs.size, hs.route, hs.leaves, hxy.1,
        hs.mem, hs.others⟩, congrArg Reply.pair hxy.2⟩
  | deleteCurrent => exact deleteCurrent_agrees hs
  | update op =>
      obtain ⟨q, hq, nd, hrun, hcontents, hholds⟩ :=
        runUpdate_spec hs.holds hs.size vec (ht op rfl)
      rw [Cursor.turn, hrun, ok_bind]
      exact .ok ⟨hs.update hq hcontents hholds, rfl⟩

theorem turns_agree {ts : List Turn} (hts : ∀ op, .update op ∈ ts → op.Valid pgid) :
    ∀ {h : Heap} {stack : Cursor.Stack} {r : RowCursor}, Shows S b fuel route h₀ h stack r →
      Lockstep (fun x y => Shows S b fuel route h₀ x.1 x.2.1 y.1 ∧ x.2.2 = y.2)
        (Cursor.turns b tx materialise vec pgid fuel ts h stack)
        (r.run route S.deep (Cursor.mayWrite tx) ts) := by
  induction ts with
  | nil => exact fun hs => .ok ⟨hs, rfl⟩
  | cons t ts ih =>
      intro h stack r hs
      have ht : ∀ op, t = .update op → op.Valid pgid := fun op hop =>
        hts op (hop ▸ List.mem_cons_self)
      refine .bind (turn_agrees hs ht) fun x y hxy => ?_
      have hts' : ∀ op, .update op ∈ ts → op.Valid pgid := fun op hop =>
        hts op (List.mem_cons_of_mem _ hop)
      refine .bind (ih hts' hxy.1) fun x' y' hxy' => ?_
      exact .ok ⟨hxy'.1, congrArg₂ List.cons hxy.2 hxy'.2⟩

/-- **A cursor while the data changes is a place in a row of leaves.**  For any
turns, calls of a fresh cursor, deletions under it and updates of the tree behind
its back, in any order: the run on the heap and the one on the row return alike
or stop in the same fault.  The leaves of the tree are those of the row then,
in order and in the same nodes, and nothing outside the tree has changed. -/
theorem live_agrees {S : NodeTree} {h : Heap} {b : Bucket} (hS : S.Holds h b)
    (hfuel : (S.contents h).size < fuel) {ts : List Turn}
    (hts : ∀ op, .update op ∈ ts → op.Valid pgid) :
    Lockstep (fun x y => x.2.2 = y.2 ∧ S.Holds x.1 b ∧ (S.contents x.1).leaves = y.1.leaves ∧
        Rests S x.2.1 y.1.place ∧ x.1.mem = h.mem ∧ ∀ m ∉ S.ptrs, x.1.node m = h.node m)
      (Cursor.turns b tx materialise vec pgid fuel ts h [])
      (RowCursor.run (S.contents h).leafOf S.deep (Cursor.mayWrite tx) ts
        ⟨(S.contents h).leaves, none⟩) := by
  have hs : Shows S b fuel (S.contents h).leafOf h h [] ⟨(S.contents h).leaves, none⟩ :=
    ⟨hS, hfuel, fun _ => rfl, (leaves_eq_row h S).symm, .lost, rfl, fun _ _ => rfl⟩
  refine (turns_agree hts hs).mono fun x y hxy => ?_
  obtain ⟨hs', hreply⟩ := hxy
  exact ⟨hreply, hs'.holds, (leaves_eq_row x.1 S).trans hs'.leaves, hs'.rests, hs'.mem, hs'.others⟩

/-- What `last` has found an empty leaf to be is out of range once the leaf is
filled. -/
example : RowCursor.run (fun _ => 0) (fun _ => true) true
    [.call .last, .update (.put [97] [1] 0 0), .call .keyValue] ⟨[[]], none⟩
      = .error .outOfRange := rfl

end NodeTree

/-- The second entry is deleted, and another one filed where it was. -/
def sampleTurns : List Turn :=
  [.call .first, .call .next, .deleteCurrent, .call .keyValue, .update (.put [100] [7] 0 0),
    .call .keyValue, .call .next]

/-- The cursor finds nothing and then, where it is, the new entry. -/
def sampleReplies : List Reply :=
  [.pair (some [98], some []), .pair (some [99], some [1]), .deleted, .pair (none, none), .updated,
    .pair (some [100], some [7]), .pair (none, none)]

theorem run_sampleTurns :
    RowCursor.run (Cursor.chainTree 9).leafOf (Cursor.chainShape 9).deep
        (Cursor.mayWrite (Cursor.writer Cursor.chainBucket)) sampleTurns
        ⟨(Cursor.chainTree 9).leaves, none⟩
      = .ok (⟨[[⟨0, [98], []⟩, ⟨0, [100], [7]⟩]], some ⟨0, 1⟩⟩, sampleReplies) := by
  decide +kernel

def sampleRun : Except Fault (Heap × Cursor.Stack × List Reply) :=
  Cursor.turns Cursor.chainBucket (Cursor.writer Cursor.chainBucket) (fun _ _ => none)
    (fun _ => 0) 1 20 sampleTurns Cursor.chainHeap []

/-- Ten levels deep, with a deletion and an update in between. -/
theorem live_sample :
    ∃ h' stack, sampleRun = .ok (h', stack, sampleReplies) ∧
      ((Cursor.chainShape 9).contents h').leaves = [[⟨0, [98], []⟩, ⟨0, [100], [7]⟩]] := by
  have hvalid : ∀ op, .update op ∈ sampleTurns → op.Valid 1 := by
    simp [sampleTurns, Node.Op.Valid]
  have hcontents := Cursor.contents_chainShape 9 (by decide)
  have hfuel : ((Cursor.chainShape 9).contents Cursor.chainHeap).size < 20 := by
    rw [hcontents]
    exact Cursor.enough_chain.size_lt
  have hagrees : Lockstep _ sampleRun _ :=
    NodeTree.live_agrees Cursor.holds_chainShape hfuel hvalid
  rw [hcontents, run_sampleTurns] at hagrees
  rcases hrun : sampleRun with e | ⟨h', stack, replies⟩
  · rw [hrun] at hagrees
    cases hagrees
  · rw [hrun] at hagrees
    cases hagrees with
    | ok hsame =>
        obtain ⟨hreplies, -, hleaves, -⟩ := hsame
        exact ⟨h', stack, congrArg (fun rs => Except.ok (h', stack, rs)) hreplies, hleaves⟩

end BoltCpp
