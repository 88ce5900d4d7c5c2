/-
BoltCpp/CursorStack.lean

The stack of a cursor, whatever was called before.

`Climbs` says that a stack leads from the root of the bucket to a subtree,
every reference above another one being to a child of it.  A stack is settled
if it climbs to a leaf.  Pages may have any number of elements here: an index
beyond 65535 may stand for another child (`Slot`), and `count()` of a page with
`2 ^ 31` elements is negative (`Counts`).

`first_`, `last_` and `next_` settle a stack.  That `next_` ends is counted by
`rank`, the steps the references of a stack have left.
-/
import BoltCpp.BucketTree

namespace BoltCpp

open ByteMem MultiTree

variable {h : Heap} {b : Bucket} {t u : Tree} {ref : ElemRef} {rest : Cursor.Stack}
  {ts : List Tree}

/-! ### Children -/

/-- The child id that a page or node holds in slot `i`. -/
def HoldsId (h : Heap) : Bucket.PageNode → Nat → Pgid → Prop
  | (_, some q), i, id => ∃ x, (h.node q).inodes[i]? = some x ∧ x.id = id
  | (some p, none), i, id =>
      i < (Page.count h.mem p).toNat ∧
        BranchPageElement.id h.mem (Page.ptr h.mem p + 16 * i) = id
  | (none, none), _, _ => False

/-- The slot an index stands for: its own, or what 16 bits make of it. -/
def Slot (ref : ElemRef) (i : Nat) : Prop :=
  ref.index = i ∨ (ref.node = none ∧ (toUInt16 ref.index).toNat = i)

/-- What `count()` makes of a number of elements. -/
inductive Counts (ref : ElemRef) (n : Nat) : Int → Prop
  | exact (hn : ref.node = none → n < 2 ^ 31) : Counts ref n n
  | wrapped (hnode : ref.node = none) (hn : 2 ^ 31 ≤ n) (hneg : toInt32 n < 0) :
      Counts ref n (toInt32 n)

/-- The index of a reference to a branch with `n` children. -/
inductive Inner (ref : ElemRef) (n : Nat) : Prop
  | inside (h0 : 0 ≤ ref.index) (hlt : ref.index < n)
  | wrapped (hnode : ref.node = none) (hn : 2 ^ 31 ≤ n) (hle : toInt32 n - 1 ≤ ref.index)

/-- The index of a reference to a leaf with `n` entries. -/
inductive Outer (ref : ElemRef) (n : Nat) : Prop
  | inside (h0 : 0 ≤ ref.index)
  | empty (hindex : ref.index = -1) (hn : n = 0)
  | wrapped (hnode : ref.node = none) (hn : 2 ^ 31 ≤ n)

def Fits (ref : ElemRef) : Tree → Prop
  | .leaf es => Outer ref es.length
  | .branch n _ _ => Inner ref n

theorem Counts.reindex {n : Nat} {c : Int} (hc : Counts ref n c) (i : Int) :
    Counts { ref with index := i } n c := by
  cases hc with
  | exact hn => exact .exact hn
  | wrapped hnode hn hneg => exact .wrapped hnode hn hneg

/-- On a page of at most 65536 elements an index stands for its own slot. -/
theorem Slot.index_eq {n : Nat} {j : Fin n} (hslot : Slot ref j) (hin : Inner ref n)
    (hwidth : ref.node = none → n ≤ 65536) : ref.index = (j : Nat) := by
  rcases hslot with hslot | ⟨hnode, hslot⟩
  · exact hslot
  have hn := hwidth hnode
  cases hin with
  | inside h0 hlt =>
      obtain ⟨i, hi⟩ := Int.eq_ofNat_of_zero_le h0
      rw [hi, toNat_toUInt16, Nat.mod_eq_of_lt (by omega)] at hslot
      omega
  | wrapped _ hn' _ => omega

theorem toInt32_neg {n : Nat} (hlo : 2 ^ 31 ≤ n) (hhi : n < 2 ^ 32) : toInt32 n < 0 := by
  rw [toInt32, Int.bmod_def]
  omega

theorem count_of_unbounded (hs : Stored h b unboundedLayout u (ref.page, ref.node)) :
    ∃ c, ref.count h = .ok c ∧ Counts ref u.width c := by
  obtain ⟨page, node, index⟩ := ref
  rcases node with - | q
  · rcases page with - | p
    · cases u with
      | leaf es => exact hs.elim
      | branch n sep child => exact hs.elim fun _ h => h.1.elim
    · have hw : (Page.count h.mem p).toNat = u.width := by
        cases u with
        | leaf es => exact hs.2.1
        | branch n sep child => exact hs.elim fun _ h => h.1.2.1
      have hlt : u.width < 2 ^ 32 := hw ▸ (Page.count h.mem p).toNat_lt
      by_cases hn : u.width < 2 ^ 31
      · refine ⟨u.width, ?_, .exact fun _ => hn⟩
        simp only [ElemRef.count, hw, toInt32_of_lt hn]
        rfl
      · refine ⟨toInt32 u.width, ?_, .wrapped rfl (by omega) (toInt32_neg (by omega) hlt)⟩
        simp only [ElemRef.count, hw]
        rfl
  · have hw : (h.node q).inodes.length = u.width := by
      cases u with
      | leaf es => simpa [MultiTree.width] using congrArg List.length hs.2
      | branch n sep child =>
          obtain ⟨id, hc, -⟩ := hs
          simpa [MultiTree.width] using congrArg List.length hc.2
    refine ⟨u.width, ?_, .exact fun h => by cases h⟩
    simp only [ElemRef.count, Node.numChildren, hw]
    rfl

/-- A reference to a branch has a child at its index. -/
theorem childId_of_inner {n : Nat} {sep : Fin n → Slice} {c : Fin n → Tree}
    (hs : Stored h b unboundedLayout (.branch n sep c) (ref.page, ref.node))
    (hin : Inner ref n) :
    ∃ (j : Fin n) (id : Pgid) (s : Bucket.PageNode), ref.childId h = .ok id ∧ Slot ref j ∧
      HoldsId h (ref.page, ref.node) j id ∧ b.pageNode id = .ok s ∧
        Stored h b unboundedLayout (c j) s := by
  obtain ⟨page, node, index⟩ := ref
  obtain ⟨id, hc, hchild⟩ := hs
  rcases node with - | q
  · rcases page with - | p
    · exact hc.elim
    · obtain ⟨-, hcount, -, helem⟩ := hc
      have hj : (toUInt16 index).toNat < n := by
        have hlt16 := (toUInt16 index).toNat_lt
        cases hin with
        | inside h0 hlt =>
            obtain ⟨i, rfl⟩ := Int.eq_ofNat_of_zero_le h0
            have hlt : (i : Int) < n := hlt
            have hmod := toNat_toUInt16 i
            rw [hmod]
            have := Nat.mod_le i 65536
            omega
        | wrapped hnode hn hle => omega
      obtain ⟨s, hp, hst⟩ := hchild ⟨_, hj⟩
      refine ⟨⟨_, hj⟩, id ⟨_, hj⟩, s, ?_, Or.inr ⟨rfl, rfl⟩, ⟨by rw [hcount]; exact hj, ?_⟩,
        hp, hst⟩
      · simp only [ElemRef.childId, Page.branchPageElement, branchPageElementSize]
        exact congrArg Except.ok (helem ⟨_, hj⟩).2
      · exact (helem ⟨_, hj⟩).2
  · obtain ⟨h0, hlt⟩ : 0 ≤ index ∧ index < n := by
      cases hin with
      | inside h0 hlt => exact ⟨h0, hlt⟩
      | wrapped hnode hn hle => cases hnode
    obtain ⟨i, rfl⟩ := Int.eq_ofNat_of_zero_le h0
    have hi : i < n := by omega
    have hx : ((h.node q).inodes.map fun x => (x.key, x.id))[i]?
        = some (sep ⟨i, hi⟩, id ⟨i, hi⟩) := by
      rw [hc.2, List.getElem?_ofFn]
      simp [hi]
    rw [List.getElem?_map, Option.map_eq_some_iff] at hx
    obtain ⟨x, hx, hkey⟩ := hx
    obtain ⟨s, hp, hst⟩ := hchild ⟨i, hi⟩
    refine ⟨⟨i, hi⟩, id ⟨i, hi⟩, s, ?_, Or.inl rfl, ⟨x, hx, congrArg Prod.snd hkey⟩, hp, hst⟩
    simp only [ElemRef.childId, vecAt_ofNat hx]
    exact congrArg Except.ok (congrArg Prod.snd hkey)

/-! ### Stacks -/

/-- The stack leads from the root of the bucket down to a subtree of `t`; the
list has the subtrees its references are about. -/
inductive Climbs (h : Heap) (b : Bucket) (t : Tree) : Cursor.Stack → List Tree → Prop
  | root {ref : ElemRef} (hp : b.pageNode b.root = .ok (ref.page, ref.node))
      (hs : Stored h b unboundedLayout t (ref.page, ref.node)) : Climbs h b t [ref] [t]
  | child {ref ref' : ElemRef} {rest : Cursor.Stack} {n : Nat} {sep : Fin n → Slice}
      {c : Fin n → Tree} {ts : List Tree} {j : Fin n} {id : Pgid}
      (hc : Climbs h b t (ref :: rest) (.branch n sep c :: ts)) (hin : Inner ref n)
      (hslot : Slot ref j) (hid : HoldsId h (ref.page, ref.node) j id)
      (hp : b.pageNode id = .ok (ref'.page, ref'.node))
      (hs : Stored h b unboundedLayout (c j) (ref'.page, ref'.node)) :
      Climbs h b t (ref' :: ref :: rest) (c j :: .branch n sep c :: ts)

/-- The first reference has an index it may have. -/
def TopFits : Cursor.Stack → List Tree → Prop
  | ref :: _, u :: _ => Fits ref u
  | _, _ => False

/-- The stack climbs to a leaf. -/
def Settled (h : Heap) (b : Bucket) (t : Tree) (stack : Cursor.Stack) : Prop :=
  ∃ es ts, Climbs h b t stack (.leaf es :: ts) ∧ TopFits stack (.leaf es :: ts)

theorem Climbs.stored (hc : Climbs h b t (ref :: rest) (u :: ts)) :
    Stored h b unboundedLayout u (ref.page, ref.node) := by
  cases hc with
  | root _ hs => exact hs
  | child _ _ _ _ _ hs => exact hs

/-- The first index is free. -/
theorem Climbs.reindex (hc : Climbs h b t (ref :: rest) ts) (i : Int) :
    Climbs h b t ({ ref with index := i } :: rest) ts := by
  cases hc with
  | root hp hs => exact .root hp hs
  | child hc hin hslot hid hp hs => exact .child hc hin hslot hid hp hs

theorem Climbs.nonempty {stack : Cursor.Stack} (ht : t.BranchesNonempty)
    (hc : Climbs h b t stack (u :: ts)) : u.BranchesNonempty := by
  generalize hus : u :: ts = us at hc
  induction hc generalizing u ts with
  | root => cases hus; exact ht
  | child _ _ _ _ _ _ ih => cases hus; exact (ih rfl).2 _

theorem Climbs.size_le {stack : Cursor.Stack} (hc : Climbs h b t stack (u :: ts)) :
    u.size ≤ t.size := by
  generalize hus : u :: ts = us at hc
  induction hc generalizing u ts with
  | root => cases hus; exact Nat.le_refl _
  | @child _ _ _ n sep c _ j _ _ _ _ _ _ _ ih =>
      cases hus
      exact Nat.le_of_lt (Nat.lt_of_lt_of_le (size_child_lt n sep c j) (ih rfl))

theorem Settled.ne_nil {stack : Cursor.Stack} (hs : Settled h b t stack) : stack ≠ [] := by
  obtain ⟨es, ts, -, hfit⟩ := hs
  rintro rfl
  exact hfit

/-! ### Steps left -/

/-- The steps a reference has left. -/
def left (h : Heap) (ref : ElemRef) : Nat :=
  match ref.count h with
  | .ok c => (c - 1 - ref.index).toNat
  | .error _ => 0

def rank (h : Heap) : Cursor.Stack → List Tree → Nat
  | ref :: rest, u :: ts => left h ref * u.weight + rank h rest ts
  | _, _ => 0

theorem left_eq {c : Int} (hc : ref.count h = .ok c) : left h ref = (c - 1 - ref.index).toNat := by
  rw [left, hc]

/-- A reference to a branch has fewer steps left than the branch has children. -/
theorem left_lt {n : Nat} {c : Int} (hn : 0 < n) (hc : ref.count h = .ok c)
    (hcount : Counts ref n c) (hin : Inner ref n) : left h ref < n := by
  rw [left_eq hc]
  cases hcount with
  | exact hlt =>
      cases hin with
      | inside h0 hlt => omega
      | wrapped hnode hn hle => exact absurd (hlt hnode) (by omega)
  | wrapped hnode hn hneg =>
      cases hin with
      | inside h0 hlt => omega
      | wrapped hnode hn hle => omega

/-- No stack has more steps left than the whole tree. -/
theorem rank_le {stack : Cursor.Stack} {us : List Tree} (ht : t.BranchesNonempty)
    (hc : Climbs h b t stack us) :
    ∀ {ref rest u ts}, stack = ref :: rest → us = u :: ts →
      rank h rest ts + u.width * u.weight ≤ t.width * t.weight := by
  induction hc with
  | root =>
      rintro _ _ _ _ ⟨⟩ ⟨⟩
      simp [rank]
  | @child ref ref' rest n sep c ts j id hc hin _ _ _ _ ih =>
      rintro _ _ _ _ ⟨⟩ ⟨⟩
      have hprev : rank h rest ts + n * (MultiTree.branch n sep c).weight ≤ t.width * t.weight :=
        ih rfl rfl
      obtain ⟨k, hk, hcount⟩ := count_of_unbounded hc.stored
      have hlt : left h ref < n := left_lt (hc.nonempty ht).1 hk hcount hin
      have hw := weight_child_lt n sep c j
      have hstep : (left h ref + 1) * (MultiTree.branch n sep c).weight
          ≤ n * (MultiTree.branch n sep c).weight := Nat.mul_le_mul_right _ hlt
      rw [Nat.add_mul, Nat.one_mul] at hstep
      rw [rank]
      omega

/-! ### Descending -/

/-- The reference to child `j` with the given index, and the climb to it. -/
theorem Climbs.push {n : Nat} {sep : Fin n → Slice} {c : Fin n → Tree}
    (hc : Climbs h b t (ref :: rest) (.branch n sep c :: ts)) (hin : Inner ref n) :
    ∃ (j : Fin n) (id : Pgid) (p : Option Nat) (q : Option NodePtr),
      ref.childId h = .ok id ∧ b.pageNode id = .ok (p, q) ∧
        ∀ i, Climbs h b t (⟨p, q, i⟩ :: ref :: rest) (c j :: .branch n sep c :: ts) := by
  obtain ⟨j, id, ⟨p, q⟩, hid, hslot, hholds, hp, hs⟩ := childId_of_inner hc.stored hin
  exact ⟨j, id, p, q, hid, hp, fun i => .child hc hin hslot hholds hp hs⟩

theorem fits_zero (hu : u.BranchesNonempty) (hindex : ref.index = 0) : Fits ref u := by
  cases u with
  | leaf es => exact .inside (by omega)
  | branch n sep c =>
      have hn : 0 < n := hu.1
      exact .inside (by omega) (by omega)

/-- The index `count() - 1` -/
theorem fits_last {c : Int} (hu : u.BranchesNonempty) (hcount : Counts ref u.width c)
    (hindex : ref.index = c - 1) : Fits ref u := by
  cases hcount with
  | exact hlt =>
      cases u with
      | leaf es =>
          have hwidth : (MultiTree.leaf es : Tree).width = es.length := rfl
          by_cases hes : es.length = 0
          · exact .empty (by omega) hes
          · exact .inside (by omega)
      | branch n sep c =>
          have hwidth : (MultiTree.branch n sep c).width = n := rfl
          have hn : 0 < n := hu.1
          exact .inside (by omega) (by omega)
  | wrapped hnode hn hneg =>
      cases u with
      | leaf es => exact .wrapped hnode hn
      | branch n sep c => exact .wrapped hnode hn (by rw [hindex]; exact Int.le_refl _)

theorem isLeaf_branch {n : Nat} {sep : Fin n → Slice} {c : Fin n → Tree}
    (hc : Climbs h b t (ref :: rest) (.branch n sep c :: ts)) : ref.isLeaf h = .ok false :=
  isLeaf_of_stored_branch hc.stored

theorem isLeaf_leaf {es : List Entry} (hc : Climbs h b t (ref :: rest) (.leaf es :: ts)) :
    ref.isLeaf h = .ok true :=
  isLeaf_of_stored_leaf hc.stored

theorem first_leaf {es : List Entry} (hc : Climbs h b t (ref :: rest) (.leaf es :: ts))
    {fuel : Nat} (hfuel : 0 < fuel) : Cursor.first_ h b fuel (ref :: rest) = .ok (ref :: rest) := by
  obtain ⟨k, rfl⟩ : ∃ k, fuel = k + 1 := ⟨fuel - 1, by omega⟩
  simp only [Cursor.first_, Cursor.back, pure_bind, isLeaf_leaf hc, ok_bind, if_true]
  rfl

theorem last_leaf {es : List Entry} (hc : Climbs h b t (ref :: rest) (.leaf es :: ts))
    {fuel : Nat} (hfuel : 0 < fuel) : Cursor.last_ h b fuel (ref :: rest) = .ok (ref :: rest) := by
  obtain ⟨k, rfl⟩ : ∃ k, fuel = k + 1 := ⟨fuel - 1, by omega⟩
  simp only [Cursor.last_, Cursor.back, pure_bind, isLeaf_leaf hc, ok_bind, if_true]
  rfl

/-- The steps at a reference and one at a child below it are steps of the
subtree. -/
theorem steps_le (hu : u.BranchesNonempty) (hc : Climbs h b t (ref :: rest) (u :: ts))
    (hfit : Fits ref u) : left h ref * u.weight + (u.weight - 1) ≤ u.width * u.weight := by
  cases u with
  | leaf es => exact Nat.zero_le _
  | branch n sep c =>
      obtain ⟨k, hk, hcount⟩ := count_of_unbounded hc.stored
      have hlt : left h ref < n := left_lt hu.1 hk hcount hfit
      have hstep : (left h ref + 1) * (MultiTree.branch n sep c).weight
          ≤ n * (MultiTree.branch n sep c).weight := Nat.mul_le_mul_right _ hlt
      rw [Nat.add_mul, Nat.one_mul] at hstep
      have hwidth : (MultiTree.branch n sep c).width = n := rfl
      rw [hwidth]
      omega

/-- **`first_` settles a stack**, and the steps it adds count less than one
step where it starts. -/
theorem first_settles (u : Tree) :
    ∀ {ref : ElemRef} {rest : Cursor.Stack} {ts : List Tree} {fuel : Nat},
      u.BranchesNonempty → Climbs h b t (ref :: rest) (u :: ts) → Fits ref u → u.size ≤ fuel →
      ∃ stack es ts', Cursor.first_ h b fuel (ref :: rest) = .ok stack ∧
        Climbs h b t stack (.leaf es :: ts') ∧ TopFits stack (.leaf es :: ts') ∧
        rank h stack (.leaf es :: ts') ≤ rank h (ref :: rest) (u :: ts) + (u.weight - 1) := by
  induction u with
  | leaf es =>
      intro ref rest ts fuel _ hc hfit hfuel
      exact ⟨ref :: rest, es, ts, first_leaf hc hfuel, hc, hfit, Nat.le_add_right _ _⟩
  | branch n sep c ih =>
      intro ref rest ts fuel hne hc hfit hfuel
      obtain ⟨j, id, p, q, hid, hp, hpush⟩ := hc.push hfit
      have hlt := size_child_lt n sep c j
      obtain ⟨k, rfl⟩ : ∃ k, fuel = k + 1 := ⟨fuel - 1, by omega⟩
      have hne' : (c j).BranchesNonempty := hne.2 j
      -- one round goes to a child at index 0, with fuel for the smaller tree left
      obtain ⟨stack, es, ts', hrun, hc', hfit', hrank⟩ :=
        ih j hne' (hpush 0) (fits_zero hne' rfl)
          (show (c j).size ≤ k by omega)
      refine ⟨stack, es, ts', ?_, hc', hfit', ?_⟩
      · simp only [Cursor.first_, Cursor.back, pure_bind, isLeaf_branch hc, ok_bind,
          Bool.false_eq_true, if_false, hid, hp]
        exact hrun
      · have hw := weight_child_lt n sep c j
        have hnew : left h ⟨p, q, 0⟩ * (c j).weight + ((c j).weight - 1)
            ≤ (c j).width * (c j).weight :=
          steps_le hne' (hpush 0) (fits_zero hne' rfl)
        rw [rank] at hrank
        omega

/-- **`last_` settles a stack.** -/
theorem last_settles (u : Tree) :
    ∀ {ref : ElemRef} {rest : Cursor.Stack} {ts : List Tree} {fuel : Nat},
      u.BranchesNonempty → Climbs h b t (ref :: rest) (u :: ts) → Fits ref u → u.size ≤ fuel →
      ∃ stack, Cursor.last_ h b fuel (ref :: rest) = .ok stack ∧ Settled h b t stack := by
  induction u with
  | leaf es =>
      intro ref rest ts fuel _ hc hfit hfuel
      exact ⟨ref :: rest, last_leaf hc hfuel, es, ts, hc, hfit⟩
  | branch n sep c ih =>
      intro ref rest ts fuel hne hc hfit hfuel
      obtain ⟨j, id, p, q, hid, hp, hpush⟩ := hc.push hfit
      have hlt := size_child_lt n sep c j
      obtain ⟨k, rfl⟩ : ∃ k, fuel = k + 1 := ⟨fuel - 1, by omega⟩
      have hne' : (c j).BranchesNonempty := hne.2 j
      obtain ⟨count, hcount, hcounts⟩ : ∃ count, (⟨p, q, 0⟩ : ElemRef).count h = .ok count ∧
          Counts ⟨p, q, 0⟩ (c j).width count := count_of_unbounded (hpush 0).stored
      -- one round goes to a child at its last index
      obtain ⟨stack, hrun, hs⟩ := ih j hne' (hpush (count - 1))
        (fits_last hne' (hcounts.reindex _) rfl) (show (c j).size ≤ k by omega)
      refine ⟨stack, ?_, hs⟩
      simp only [Cursor.last_, Cursor.back, pure_bind, isLeaf_branch hc, ok_bind,
        Bool.false_eq_true, if_false, hid, hp, hcount]
      exact hrun

/-! ### Reading -/

/-- `keyValue` returns on a leaf. -/
theorem keyValue_settled {stack : Cursor.Stack} (hs : Settled h b t stack) :
    ∃ kv, Cursor.keyValue h stack = .ok kv := by
  obtain ⟨es, ts, hc, hfit⟩ := hs
  rcases stack with - | ⟨ref, rest⟩
  · exact hfit.elim
  have hstored := hc.stored
  obtain ⟨c, hcount, hcounts⟩ := count_of_unbounded hstored
  obtain ⟨page, node, index⟩ := ref
  simp only [Cursor.keyValue, Cursor.back, pure_bind, hcount, ok_bind]
  split
  · exact ⟨_, rfl⟩
  rename_i hread
  rcases node with - | q
  · rcases page with - | p
    · exact hstored.elim
    · exact ⟨_, rfl⟩
  · -- a node is read inside its inodes
    have hlen : (h.node q).inodes.length = es.length := by
      simpa using congrArg List.length hstored.2
    obtain ⟨i, hi, rfl⟩ : ∃ i : Nat, i < (h.node q).inodes.length ∧ index = i := by
      have hwidth : (MultiTree.leaf es : Tree).width = es.length := rfl
      cases hcounts with
      | wrapped hnode hn hneg => cases hnode
      | exact hn =>
          cases hfit with
          | wrapped hnode hn => cases hnode
          | empty hindex hn => omega
          | inside h0 =>
              have h0 : 0 ≤ index := h0
              exact ⟨index.toNat, by omega, by omega⟩
    simp only [vecAt_ofNat (List.getElem?_eq_getElem hi), ok_bind]
    exact ⟨_, rfl⟩

/-! ### Stepping -/

/-- A reference that has a next index may have it. -/
theorem fits_succ {c : Int} (hcount : Counts ref u.width c) (hfit : Fits ref u)
    (hlt : ref.index < c - 1) : Fits { ref with index := ref.index + 1 } u := by
  cases u with
  | leaf es =>
      have hwidth : (MultiTree.leaf es : Tree).width = es.length := rfl
      cases hfit with
      | inside h0 => exact .inside (show 0 ≤ ref.index + 1 by omega)
      | wrapped hnode hn => exact .wrapped hnode hn
      | empty hindex hn =>
          cases hcount with
          | exact => omega
          | wrapped hnode hn' hneg => omega
  | branch n sep c =>
      have hwidth : (MultiTree.branch n sep c).width = n := rfl
      cases hcount with
      | exact hn =>
          cases hfit with
          | inside h0 hin =>
              exact Inner.inside (show 0 ≤ ref.index + 1 by omega)
                (show ref.index + 1 < n by omega)
          | wrapped hnode hn' hle => exact absurd (hn hnode) (by omega)
      | wrapped hnode hn hneg =>
          cases hfit with
          | inside h0 hin => omega
          | wrapped hnode' hn' hle => rw [hwidth] at hlt; omega

theorem count_ne_zero {c : Int} (hcount : Counts ref u.width c) (hfit : Fits ref u)
    (hlt : ref.index < c - 1) : c ≠ 0 := by
  cases hcount with
  | wrapped hnode hn hneg => omega
  | exact hn =>
      cases u with
      | leaf es =>
          have hwidth : (MultiTree.leaf es : Tree).width = es.length := rfl
          cases hfit with
          | inside h0 => omega
          | empty hindex hn' => omega
          | wrapped hnode hn' => omega
      | branch n sep c =>
          have hwidth : (MultiTree.branch n sep c).width = n := rfl
          cases hfit with
          | inside h0 hin => omega
          | wrapped hnode hn' hle => omega

/-- A step uses up one of the steps that are left. -/
theorem rank_succ {c : Int} (hcount : ref.count h = .ok c) (hlt : ref.index < c - 1) :
    rank h ({ ref with index := ref.index + 1 } :: rest) (u :: ts) + u.weight
      = rank h (ref :: rest) (u :: ts) := by
  have hcount' : ElemRef.count h { ref with index := ref.index + 1 } = .ok c := hcount
  have hleft : left h ref = left h { ref with index := ref.index + 1 } + 1 := by
    rw [left_eq hcount, left_eq hcount']
    dsimp only
    omega
  rw [rank, rank, hleft, Nat.add_mul, Nat.one_mul]
  omega

/-- The inner loop of `next_` finds no next index, or takes a step. -/
theorem stepForward_climbs {stack : Cursor.Stack} {us : List Tree} (hc : Climbs h b t stack us)
    (hfit : TopFits stack us) :
    Cursor.stepForward h stack = .ok none ∨
      ∃ ref rest u ts c, Cursor.stepForward h stack = .ok (some (ref :: rest)) ∧
        Climbs h b t (ref :: rest) (u :: ts) ∧ Fits ref u ∧ ref.count h = .ok c ∧ c ≠ 0 ∧
        rank h (ref :: rest) (u :: ts) + u.weight ≤ rank h stack us := by
  -- what happens at one reference, given what happens below it
  have hhere : ∀ {ref : ElemRef} {rest : Cursor.Stack} {u : Tree} {ts : List Tree},
      Climbs h b t (ref :: rest) (u :: ts) → Fits ref u →
      Cursor.stepForward h (ref :: rest) = Cursor.stepForward h rest ∨
        ∃ ref' c, Cursor.stepForward h (ref :: rest) = .ok (some (ref' :: rest)) ∧
          Climbs h b t (ref' :: rest) (u :: ts) ∧ Fits ref' u ∧ ref'.count h = .ok c ∧ c ≠ 0 ∧
          rank h (ref' :: rest) (u :: ts) + u.weight ≤ rank h (ref :: rest) (u :: ts) := by
    intro ref rest u ts hc hfit
    obtain ⟨c, hcount, hcounts⟩ := count_of_unbounded hc.stored
    simp only [Cursor.stepForward, hcount, ok_bind]
    by_cases hlt : ref.index < c - 1
    · rw [if_pos hlt]
      exact Or.inr ⟨_, c, rfl, hc.reindex _, fits_succ hcounts hfit hlt, hcount,
        count_ne_zero hcounts hfit hlt, Nat.le_of_eq (rank_succ hcount hlt)⟩
    · rw [if_neg hlt]
      exact Or.inl rfl
  induction hc with
  | @root ref hp hs =>
      rcases hhere (.root hp hs) hfit with heq | ⟨ref', c, h⟩
      · exact Or.inl heq
      · exact Or.inr ⟨ref', [], t, [], c, h⟩
  | @child ref ref' rest n sep c ts j id hc hin hslot hid hp hs ih =>
      rcases hhere (.child hc hin hslot hid hp hs) hfit with heq | ⟨ref'', k, h⟩
      · -- exhausted: the loop goes on to the reference below
        rw [heq]
        rcases ih hin with hnone | ⟨ref₁, rest₁, u₁, ts₁, k, hsome, hc₁, hf₁, hk, hne, hrank⟩
        · exact Or.inl hnone
        · refine Or.inr ⟨ref₁, rest₁, u₁, ts₁, k, hsome, hc₁, hf₁, hk, hne, ?_⟩
          exact Nat.le_trans hrank (Nat.le_add_left _ _)
      · exact Or.inr ⟨ref'', ref :: rest, c j, _, k, h⟩

/-- The outer loop of `next_` ends on a leaf, wherever that is. -/
theorem nextLoop_settles (ht : t.BranchesNonempty) {fuel : Nat} (hfuel : t.size ≤ fuel) :
    ∀ (restarts : Nat) {stack : Cursor.Stack} {es : List Entry} {ts : List Tree},
      Climbs h b t stack (.leaf es :: ts) → TopFits stack (.leaf es :: ts) →
      rank h stack (.leaf es :: ts) < restarts →
      ∃ stack' kv, Cursor.nextLoop h b fuel restarts stack = .ok (stack', kv) ∧
        Settled h b t stack' := by
  intro restarts
  induction restarts with
  | zero => intro stack es ts _ _ hr; exact absurd hr (Nat.not_lt_zero _)
  | succ restarts ih =>
      intro stack es ts hc hfit hr
      rcases stepForward_climbs hc hfit with
        hnone | ⟨ref₁, rest₁, u₁, ts₁, c, hsome, hc₁, hfit₁, hcount, hne, hrank⟩
      · refine ⟨stack, (none, none, 0), ?_, es, ts, hc, hfit⟩
        simp only [Cursor.nextLoop, hnone, ok_bind]
        rfl
      obtain ⟨stack₂, es₂, ts₂, hfirst, hc₂, hfit₂, hrank₂⟩ :=
        first_settles u₁ (hc₁.nonempty ht) hc₁ hfit₁ (Nat.le_trans hc₁.size_le hfuel)
      have hs₂ : Settled h b t stack₂ := ⟨es₂, ts₂, hc₂, hfit₂⟩
      rcases stack₂ with - | ⟨ref₂, rest₂⟩
      · exact hfit₂.elim
      obtain ⟨c₂, hcount₂, hcounts₂⟩ := count_of_unbounded hc₂.stored
      obtain ⟨kv, hkv⟩ := keyValue_settled hs₂
      simp only [Cursor.nextLoop, hsome, ok_bind, hfirst, Cursor.back, pure_bind, hcount₂, hkv]
      by_cases hempty : c₂ = 0
      · -- an empty leaf, so a branch has stepped, and that counts more than the way down
        rw [if_pos hempty]
        refine ih hc₂ hfit₂ ?_
        cases u₁ with
        | leaf es₁ =>
            rw [first_leaf hc₁ (Nat.lt_of_lt_of_le (Nat.succ_pos 0)
              (Nat.le_trans hc₁.size_le hfuel))] at hfirst
            cases hfirst
            rw [hcount₂] at hcount
            exact absurd (Except.ok.inj hcount ▸ hempty) hne
        | branch n sep child =>
            have hpos : 0 < (MultiTree.branch n sep child).weight :=
              Nat.lt_of_lt_of_le Nat.one_pos (Nat.le_add_right _ _)
            omega
      · rw [if_neg hempty]
        exact ⟨_, kv, rfl, hs₂⟩

/-- Fuel that is enough for every walk through the tree. -/
def Enough (t : Tree) (fuel : Nat) : Prop := t.size + t.width * t.weight < fuel

theorem Enough.size_lt {fuel : Nat} (hfuel : Enough t fuel) : t.size < fuel :=
  Nat.lt_of_le_of_lt (Nat.le_add_right _ _) hfuel

theorem Enough.size_le {fuel : Nat} (hfuel : Enough t fuel) : t.size ≤ fuel :=
  Nat.le_of_lt hfuel.size_lt

/-- **`next_` keeps a stack settled.** -/
theorem next_settles (ht : t.BranchesNonempty) {fuel : Nat} (hfuel : Enough t fuel)
    {stack : Cursor.Stack} (hs : Settled h b t stack) :
    ∃ stack' kv, Cursor.next_ h b fuel stack = .ok (stack', kv) ∧ Settled h b t stack' := by
  have hlen : stack.length > 0 := List.length_pos_iff.mpr hs.ne_nil
  obtain ⟨es, ts, hc, hfit⟩ := hs
  rw [Cursor.next_, if_pos hlen]
  refine nextLoop_settles ht hfuel.size_le fuel hc hfit ?_
  rcases stack with - | ⟨ref, rest⟩
  · exact hfit.elim
  -- the leaf itself has no weight
  have hrank := rank_le ht hc rfl rfl
  have hleaf : (MultiTree.leaf es : Tree).weight = 0 := rfl
  have hfuel : t.size + t.width * t.weight < fuel := hfuel
  rw [rank, hleaf]
  omega

end BoltCpp
