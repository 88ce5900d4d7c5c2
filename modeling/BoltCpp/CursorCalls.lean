/-
BoltCpp/CursorCalls.lean

Cursor calls in any order.

Every call leaves a settled stack or, if `prev` has run off the front, the
empty one (`call_settled`), on which the next call that needs the stack fails
(`call_empty`).  So it depends on the order of the calls whether they all
return (`calls_return_iff`); as long as they do, the stack is a path from the
root to a leaf (`stays_path`).
-/
import BoltCpp.CursorSearch
import BoltCpp.Forward

namespace BoltCpp

namespace Cursor

open ByteMem MultiTree

variable {h : Heap} {b : Bucket} {t : Tree} {fuel : Nat} {stack : Stack}

/-- The public operations; `vec` is where `seek` copies elements to. -/
inductive Call where
  | first
  | last
  | next
  | prev
  | seek (key : Slice) (vec : Nat → Nat)
  | keyValue

/-- A call that begins at the root. -/
def Call.Starts : Call → Prop
  | .first | .last | .seek _ _ => True
  | .next | .prev | .keyValue => False

/-- `seek` finds room for its copies. -/
def Call.Clear (h : Heap) (b : Bucket) : Call → Prop
  | .seek key vec => VectorsAway h b vec key
  | _ => True

section

variable (h : Heap) (b : Bucket) (fuel : Nat)

def call (stack : Stack) : Call → Except Fault (Stack × Pair)
  | .first => first h b fuel stack
  | .last => last h b fuel stack
  | .next => next h b fuel stack
  | .prev => prev h b fuel stack
  | .seek key vec => seek h b vec fuel key stack
  | .keyValue => do
      let kv ← keyValue h stack
      pure (stack, toPair kv)

def calls : List Call → Stack → Except Fault Stack
  | [], stack => pure stack
  | c :: cs, stack => do
      let (stack, _) ← call h b fuel stack c
      calls cs stack

end

/-- The bucket stores the tree, in pages and nodes of any width. -/
structure AnyTree (h : Heap) (b : Bucket) (t : Tree) : Prop where
  stored : HasTree h b unboundedLayout t
  nonempty : t.BranchesNonempty
  typed : PagesTyped h b

/-! ### One call -/

/-- Reading the count of the leaf on top. -/
theorem count_settled (hs : Settled h b t stack) :
    ∃ ref rest c, stack = ref :: rest ∧ ref.count h = .ok c := by
  obtain ⟨es, ts, hc, hfit⟩ := hs
  rcases stack with - | ⟨ref, rest⟩
  · exact hfit.elim
  obtain ⟨c, hcount, -⟩ := count_of_unbounded hc.stored
  exact ⟨ref, rest, c, rfl, hcount⟩

theorem first_call (ht : AnyTree h b t) (hfuel : Enough t fuel) (stack₀ : Stack) :
    ∃ stack pair, first h b fuel stack₀ = .ok (stack, pair) ∧ Settled h b t stack := by
  obtain ⟨⟨p, q⟩, hp, hs⟩ := ht.stored.root
  have hc : Climbs h b t [⟨p, q, 0⟩] [t] := .root hp hs
  obtain ⟨stack, es, ts, hfirst, hc', hfit, -⟩ :=
    first_settles t ht.nonempty hc (fits_zero ht.nonempty rfl) hfuel.size_le
  have hset : Settled h b t stack := ⟨es, ts, hc', hfit⟩
  obtain ⟨ref, rest, c, rfl, hcount⟩ := count_settled hset
  by_cases hempty : c = 0
  · -- an empty first leaf: `next_` looks for another one
    obtain ⟨stack', kv, hnext, hset'⟩ := next_settles ht.nonempty hfuel hset
    obtain ⟨kv', hkv⟩ := keyValue_settled hset'
    refine ⟨stack', toPair kv', ?_, hset'⟩
    simp only [first, assertOpen_ok ht.stored, hp, ok_bind, hfirst, back, pure_bind, hcount,
      if_pos hempty, hnext, hkv]
    rfl
  · obtain ⟨kv, hkv⟩ := keyValue_settled hset
    refine ⟨ref :: rest, toPair kv, ?_, hset⟩
    simp only [first, assertOpen_ok ht.stored, hp, ok_bind, hfirst, back, pure_bind, hcount,
      if_neg hempty, hkv]
    rfl

theorem last_call (ht : AnyTree h b t) (hfuel : Enough t fuel) (stack₀ : Stack) :
    ∃ stack pair, last h b fuel stack₀ = .ok (stack, pair) ∧ Settled h b t stack := by
  obtain ⟨⟨p, q⟩, hp, hs⟩ := ht.stored.root
  obtain ⟨c, hcount, hcounts⟩ : ∃ c, (⟨p, q, 0⟩ : ElemRef).count h = .ok c ∧
      Counts ⟨p, q, 0⟩ t.width c := count_of_unbounded hs
  have hc : Climbs h b t [⟨p, q, c - 1⟩] [t] := .root hp hs
  obtain ⟨stack, hlast, hset⟩ := last_settles t ht.nonempty hc
    (fits_last ht.nonempty (hcounts.reindex _) rfl) hfuel.size_le
  obtain ⟨kv, hkv⟩ := keyValue_settled hset
  exact ⟨stack, toPair kv, last_returns ht.stored hp hcount hlast hkv stack₀, hset⟩

theorem seek_call (ht : AnyTree h b t) (hfuel : Enough t fuel) (key : Slice) {vec : Nat → Nat}
    (haway : VectorsAway h b vec key) (stack₀ : Stack) :
    ∃ stack pair, seek h b vec fuel key stack₀ = .ok (stack, pair) ∧ Settled h b t stack := by
  obtain ⟨s, hp, hs⟩ := ht.stored.root
  obtain ⟨stack, hsearch, hset⟩ := search_settles haway ht.typed t .refl (.root hp) (.root hp) hp
    (fun i => .root hp hs) ht.nonempty hfuel.size_le
  obtain ⟨ref, rest, c, rfl, hcount⟩ := count_settled hset
  obtain ⟨kv, hkv⟩ := keyValue_settled hset
  by_cases hend : ref.index ≥ c
  · -- past the end of the leaf: `next_` goes on
    obtain ⟨stack', kv', hnext, hset'⟩ := next_settles ht.nonempty hfuel hset
    have hseek : seek_ h b vec fuel key stack₀ = .ok (ref :: rest, none, none, 0) := by
      simp only [seek_, assertOpen_ok ht.stored, hsearch, ok_bind, back, pure_bind, hcount,
        if_pos hend]
      rfl
    refine ⟨stack', if kv'.1.isSome then (none, none) else toPair kv', ?_, hset'⟩
    simp only [seek, hseek, ok_bind, back, pure_bind, hcount, if_pos hend, hnext]
    split <;> rfl
  · have hseek : seek_ h b vec fuel key stack₀ = .ok (ref :: rest, kv) := by
      simp only [seek_, assertOpen_ok ht.stored, hsearch, ok_bind, back, pure_bind, hcount,
        if_neg hend, hkv]
      rfl
    refine ⟨ref :: rest, if kv.1.isSome then (none, none) else toPair kv, ?_, hset⟩
    simp only [seek, hseek, ok_bind, back, pure_bind, hcount, if_neg hend]
    split <;> rfl

/-- **Calls that begin at the root** return, with the cursor on a leaf. -/
theorem call_starts (ht : AnyTree h b t) (hfuel : Enough t fuel) {c : Call} (hc : c.Starts)
    (hclear : c.Clear h b) (stack₀ : Stack) :
    ∃ stack pair, call h b fuel stack₀ c = .ok (stack, pair) ∧ Settled h b t stack := by
  cases c with
  | first => exact first_call ht hfuel stack₀
  | last => exact last_call ht hfuel stack₀
  | seek key vec => exact seek_call ht hfuel key hclear stack₀
  | next => exact hc.elim
  | prev => exact hc.elim
  | keyValue => exact hc.elim

/-- No index of the stack can be stepped back. -/
def AtFront (stack : Stack) : Prop := ∀ ref ∈ stack, ref.index ≤ 0

theorem stepBack_eq_nil_iff (stack : Stack) : stepBack stack = [] ↔ AtFront stack := by
  induction stack with
  | nil => exact ⟨fun _ _ h => (by cases h), fun _ => rfl⟩
  | cons ref rest ih =>
      rw [stepBack, AtFront, List.forall_mem_cons]
      by_cases hpos : ref.index > 0
      · simp [hpos]
      · rw [if_neg hpos, ih, AtFront]
        simp [not_lt.mp hpos]

theorem prev_front (ht : AnyTree h b t) (hfront : AtFront stack) :
    prev h b fuel stack = .ok ([], none, none) := by
  simp only [prev, assertOpen_ok ht.stored, ok_bind, (stepBack_eq_nil_iff stack).mpr hfront]
  rfl

theorem prev_call (ht : AnyTree h b t) (hfuel : Enough t fuel) (hfront : ¬ AtFront stack) :
    ∃ stack' pair, prev h b fuel stack = .ok (stack', pair) ∧ Settled h b t stack' := by
  have hne : ¬ (stepBack stack).length = 0 := fun h =>
    hfront ((stepBack_eq_nil_iff stack).mp (List.length_eq_zero_iff.mp h))
  obtain ⟨stack', pair, hlast, hset⟩ := last_call ht hfuel (stepBack stack)
  obtain ⟨kv, hkv⟩ := keyValue_settled hset
  refine ⟨stack', toPair kv, ?_, hset⟩
  simp only [prev, assertOpen_ok ht.stored, ok_bind, if_neg hne, hlast, hkv]
  rfl

/-- **What a call leaves behind**, called on a leaf: a leaf, or nothing if
`prev` runs off the front. -/
theorem call_settled (ht : AnyTree h b t) (hfuel : Enough t fuel) {c : Call}
    (hclear : c.Clear h b) (hs : Settled h b t stack) :
    (c = .prev ∧ AtFront stack ∧ call h b fuel stack c = .ok ([], none, none)) ∨
      (¬ (c = .prev ∧ AtFront stack) ∧
        ∃ stack' pair, call h b fuel stack c = .ok (stack', pair) ∧ Settled h b t stack') := by
  cases c with
  | first => exact Or.inr ⟨fun h => (by cases h.1), first_call ht hfuel stack⟩
  | last => exact Or.inr ⟨fun h => (by cases h.1), last_call ht hfuel stack⟩
  | seek key vec => exact Or.inr ⟨fun h => (by cases h.1), seek_call ht hfuel key hclear stack⟩
  | next =>
      obtain ⟨stack', kv, hnext, hset⟩ := next_settles ht.nonempty hfuel hs
      refine Or.inr ⟨fun h => (by cases h.1), stack', toPair kv, ?_, hset⟩
      simp only [call, next, assertOpen_ok ht.stored, ok_bind, hnext]
      rfl
  | keyValue =>
      obtain ⟨kv, hkv⟩ := keyValue_settled hs
      refine Or.inr ⟨fun h => (by cases h.1), stack, toPair kv, ?_, hs⟩
      simp only [call, hkv, ok_bind]
      rfl
  | prev =>
      by_cases hfront : AtFront stack
      · exact Or.inl ⟨rfl, hfront, prev_front ht hfront⟩
      · exact Or.inr ⟨fun h => hfront h.2, prev_call ht hfuel hfront⟩

/-- Called on an empty stack, a call begins at the root, has nothing to step
back, or fails. -/
theorem call_empty (ht : AnyTree h b t) (hfuel : Enough t fuel) {c : Call}
    (hclear : c.Clear h b) :
    (c.Starts ∧ ∃ stack pair, call h b fuel [] c = .ok (stack, pair) ∧ Settled h b t stack) ∨
      (c = .prev ∧ call h b fuel [] c = .ok ([], none, none)) ∨
      ((c = .next ∨ c = .keyValue) ∧ ∃ e, call h b fuel [] c = .error e) := by
  cases c with
  | first => exact Or.inl ⟨trivial, first_call ht hfuel []⟩
  | last => exact Or.inl ⟨trivial, last_call ht hfuel []⟩
  | seek key vec => exact Or.inl ⟨trivial, seek_call ht hfuel key hclear []⟩
  | prev => exact Or.inr (Or.inl ⟨rfl, prev_front ht fun _ h => (by cases h)⟩)
  | next =>
      refine Or.inr (Or.inr ⟨Or.inl rfl, .assertion "this->stack_.size() > 0", ?_⟩)
      rw [call, next, assertOpen_ok ht.stored]
      rfl
  | keyValue => exact Or.inr (Or.inr ⟨Or.inr rfl, .emptyBack, rfl⟩)

/-- A call leaves the cursor on a leaf or empties it, or needs what an empty
stack does not have. -/
theorem call_rests (ht : AnyTree h b t) (hfuel : Enough t fuel) {c : Call}
    (hclear : c.Clear h b) (hstack : stack = [] ∨ Settled h b t stack) :
    (∃ stack' pair, call h b fuel stack c = .ok (stack', pair) ∧
        (stack' = [] ∨ Settled h b t stack')) ∨
      (stack = [] ∧ (c = .next ∨ c = .keyValue) ∧ ∃ e, call h b fuel stack c = .error e) := by
  rcases hstack with rfl | hs
  · rcases call_empty ht hfuel hclear with
      ⟨-, stack', pair, hcall, hs'⟩ | ⟨-, hcall⟩ | ⟨hneeds, herror⟩
    · exact Or.inl ⟨stack', pair, hcall, Or.inr hs'⟩
    · exact Or.inl ⟨[], _, hcall, Or.inl rfl⟩
    · exact Or.inr ⟨rfl, hneeds, herror⟩
  · rcases call_settled ht hfuel hclear hs with
      ⟨-, -, hcall⟩ | ⟨-, stack', pair, hcall, hs'⟩
    · exact Or.inl ⟨[], _, hcall, Or.inl rfl⟩
    · exact Or.inl ⟨stack', pair, hcall, Or.inr hs'⟩

/-! ### Any calls -/

/-- The first call that is not `prev`, if there is one, begins at the root. -/
def Recovers : List Call → Prop
  | [] => True
  | .prev :: cs => Recovers cs
  | c :: _ => c.Starts

theorem Call.Starts.recovers {c : Call} (hc : c.Starts) (cs : List Call) :
    Recovers (c :: cs) := by
  cases c with
  | first => trivial
  | last => trivial
  | seek => trivial
  | next => exact hc
  | prev => exact hc.elim
  | keyValue => exact hc

theorem Call.Starts.ne_prev {c : Call} (hc : c.Starts) : c ≠ .prev := by
  rintro rfl
  exact hc

/-- Whenever `prev` is called at the front, the calls after it recover. -/
def FrontRecovers (h : Heap) (b : Bucket) (fuel : Nat) : List Call → Stack → Prop
  | [], _ => True
  | c :: cs, stack =>
      (c = .prev → AtFront stack → Recovers cs) ∧
        ∀ stack' pair, call h b fuel stack c = .ok (stack', pair) →
          FrontRecovers h b fuel cs stack'

theorem frontRecovers_cons {c : Call} {cs : List Call} {stack' : Stack} {pair : Pair}
    (hcall : call h b fuel stack c = .ok (stack', pair)) :
    FrontRecovers h b fuel (c :: cs) stack ↔
      (c = .prev → AtFront stack → Recovers cs) ∧ FrontRecovers h b fuel cs stack' := by
  rw [FrontRecovers, hcall]
  refine and_congr_right fun _ => ⟨fun h => h _ _ rfl, fun h _ _ heq => ?_⟩
  cases heq
  exact h

theorem calls_cons {c : Call} {cs : List Call} {stack' : Stack} {pair : Pair}
    (hcall : call h b fuel stack c = .ok (stack', pair)) :
    calls h b fuel (c :: cs) stack = calls h b fuel cs stack' := by
  rw [calls, hcall]
  rfl

/-- Calls from a leaf, and from the empty stack. -/
theorem calls_iff (ht : AnyTree h b t) (hfuel : Enough t fuel) (cs : List Call)
    (hclear : ∀ c ∈ cs, c.Clear h b) :
    (∀ stack, Settled h b t stack →
      ((∃ stack', calls h b fuel cs stack = .ok stack') ↔ FrontRecovers h b fuel cs stack)) ∧
    ((∃ stack', calls h b fuel cs [] = .ok stack') ↔
      Recovers cs ∧ FrontRecovers h b fuel cs []) := by
  induction cs with
  | nil => exact ⟨fun stack _ => ⟨fun _ => trivial, fun _ => ⟨stack, rfl⟩⟩,
      ⟨fun _ => ⟨trivial, trivial⟩, fun _ => ⟨[], rfl⟩⟩⟩
  | cons c cs ih =>
      rw [List.forall_mem_cons] at hclear
      obtain ⟨ihleaf, ihempty⟩ := ih hclear.2
      refine ⟨fun stack hs => ?_, ?_⟩
      · rcases call_settled ht hfuel hclear.1 hs with
          ⟨rfl, hfront, hcall⟩ | ⟨hnot, stack', pair, hcall, hs'⟩
        · rw [calls_cons hcall, frontRecovers_cons hcall, ihempty]
          simp [hfront]
        · rw [calls_cons hcall, frontRecovers_cons hcall, ihleaf stack' hs']
          exact ⟨fun h => ⟨fun hprev hfront => absurd ⟨hprev, hfront⟩ hnot, h⟩, And.right⟩
      · rcases call_empty ht hfuel hclear.1 with
          ⟨hstart, stack', pair, hcall, hs'⟩ | ⟨rfl, hcall⟩ | ⟨hneeds, e, hcall⟩
        · rw [calls_cons hcall, frontRecovers_cons hcall, ihleaf stack' hs']
          exact ⟨fun h => ⟨hstart.recovers cs, fun heq => absurd heq hstart.ne_prev, h⟩,
            fun h => h.2.2⟩
        · rw [calls_cons hcall, frontRecovers_cons hcall, ihempty]
          exact ⟨fun h => ⟨h.1, fun _ _ => h.1, h.2⟩, fun h => ⟨h.1, h.2.2⟩⟩
        · -- the calls end here, and not with one that begins at the root
          have hfails : ¬ ∃ stack', calls h b fuel (c :: cs) [] = .ok stack' := by
            rintro ⟨stack', hcalls⟩
            rw [calls, hcall] at hcalls
            cases hcalls
          refine iff_of_false hfails fun h => ?_
          rcases hneeds with rfl | rfl
          · exact h.1
          · exact h.1

/-- So do calls, as long as they return. -/
theorem calls_rest (ht : AnyTree h b t) (hfuel : Enough t fuel) (cs : List Call)
    (hclear : ∀ c ∈ cs, c.Clear h b) :
    ∀ {stack stack' : Stack}, stack = [] ∨ Settled h b t stack →
      calls h b fuel cs stack = .ok stack' → stack' = [] ∨ Settled h b t stack' := by
  induction cs with
  | nil =>
      intro stack stack' hstack hrun
      cases hrun
      exact hstack
  | cons c cs ih =>
      intro stack stack' hstack hrun
      rw [List.forall_mem_cons] at hclear
      rcases call_rests ht hfuel hclear.1 hstack with
        ⟨stack₁, pair, hcall, hstack₁⟩ | ⟨-, -, e, hcall⟩
      · rw [calls_cons hcall] at hrun
        exact ih hclear.2 hstack₁ hrun
      · rw [calls, hcall] at hrun
        cases hrun

/-- **When cursor calls go through.**  Calls that begin with `first`, `last` or
`seek` all return if and only if, whenever `prev` is called with no index to
step back, the next call other than `prev` is again one of these. -/
theorem calls_return_iff (ht : AnyTree h b t) (hfuel : Enough t fuel) {c : Call}
    (hc : c.Starts) {cs : List Call} (hclear : ∀ c' ∈ c :: cs, c'.Clear h b) (stack₀ : Stack) :
    (∃ stack, calls h b fuel (c :: cs) stack₀ = .ok stack) ↔
      FrontRecovers h b fuel (c :: cs) stack₀ := by
  rw [List.forall_mem_cons] at hclear
  obtain ⟨stack, pair, hcall, hs⟩ := call_starts ht hfuel hc hclear.1 stack₀
  rw [calls_cons hcall, frontRecovers_cons hcall, (calls_iff ht hfuel cs hclear.2).1 stack hs]
  exact ⟨fun h => ⟨fun heq => absurd heq hc.ne_prev, h⟩, And.right⟩

/-! ### Paths -/

/-- The stack is a path from the root of the bucket: below the first reference
there are branches only, and each holds, at its index, the id of the child the
reference above it is to. -/
inductive FromRoot (h : Heap) (b : Bucket) : Stack → Prop
  | root {ref : ElemRef} (hp : b.pageNode b.root = .ok (ref.page, ref.node)) : FromRoot h b [ref]
  | child {ref ref' : ElemRef} {rest : Stack} {count : Int} {id : Pgid}
      (hpath : FromRoot h b (ref :: rest)) (hleaf : ref.isLeaf h = .ok false)
      (hcount : ref.count h = .ok count) (h0 : 0 ≤ ref.index) (hlt : ref.index < count)
      (hid : HoldsId h (ref.page, ref.node) ref.index.toNat id)
      (hp : b.pageNode id = .ok (ref'.page, ref'.node)) : FromRoot h b (ref' :: ref :: rest)

/-- The path ends at a leaf. -/
structure RootToLeaf (h : Heap) (b : Bucket) (stack : Stack) : Prop where
  path : FromRoot h b stack
  leaf : ∃ ref rest, stack = ref :: rest ∧ ref.isLeaf h = .ok true

/-- As long as `next` and `keyValue` are not called on an empty stack, every
call returns and leaves an empty stack or a path to a leaf. -/
def StaysPath (h : Heap) (b : Bucket) (fuel : Nat) : List Call → Stack → Prop
  | [], _ => True
  | c :: cs, stack =>
      (c = .next ∨ c = .keyValue → stack ≠ []) →
        ∃ stack' pair, call h b fuel stack c = .ok (stack', pair) ∧
          (stack' = [] ∨ RootToLeaf h b stack') ∧ StaysPath h b fuel cs stack'

/-- A branch page has at most 65536 elements: 16 bits hold their indices. -/
def Narrow (h : Heap) (b : Bucket) : Prop :=
  ∀ p, Reaches h b (some p, none) → ElemRef.isLeaf h ⟨some p, none, 0⟩ = .ok false →
    (Page.count h.mem p).toNat ≤ 65536

theorem Narrow.width_le (hnarrow : Narrow h b) {ref : ElemRef} {n : Nat} {sep : Fin n → Slice}
    {c : Fin n → Tree} (hs : Stored h b unboundedLayout (.branch n sep c) (ref.page, ref.node))
    (hreach : Reaches h b (ref.page, ref.node)) (hnode : ref.node = none) : n ≤ 65536 := by
  obtain ⟨page, node, index⟩ := ref
  obtain rfl : node = none := hnode
  have hleaf := isLeaf_of_stored_branch hs
  obtain ⟨ids, hholds, -⟩ := hs
  cases page with
  | none => exact hholds.elim
  | some p =>
      rw [← hholds.2.1]
      exact hnarrow p hreach hleaf

/-- On narrow pages an index stands for its own slot. -/
theorem path_of_climbs (hnarrow : Narrow h b) {u : Tree} {ts : List Tree}
    (hc : Climbs h b t stack (u :: ts)) :
    FromRoot h b stack ∧ ∀ ref rest, stack = ref :: rest → Reaches h b (ref.page, ref.node) := by
  generalize hus : u :: ts = us at hc
  induction hc generalizing u ts with
  | root hp hs =>
      refine ⟨.root hp, ?_⟩
      rintro _ _ ⟨⟩
      exact .root hp
  | @child ref ref' rest n sep c ts' j id hc hin hslot hid hp hs ih =>
      obtain ⟨hpath, hreach⟩ := ih rfl
      have hreach := hreach ref rest rfl
      have hleaf := isLeaf_branch hc
      have hwidth : ref.node = none → n ≤ 65536 := hnarrow.width_le hc.stored hreach
      refine ⟨?_, ?_⟩
      · obtain ⟨count, hcount, hcounts⟩ := count_of_unbounded hc.stored
        obtain rfl : count = n := by
          cases hcounts with
          | exact => rfl
          | wrapped hnode hn hneg =>
              have hn : 2 ^ 31 ≤ n := hn
              exact absurd (hwidth hnode) (by omega)
        have hindex : ref.index = (j : Nat) := hslot.index_eq hin hwidth
        have hj : ref.index.toNat = j := by omega
        rw [← hj] at hid
        exact .child hpath hleaf hcount (by omega) (by omega) hid hp
      · rintro _ _ ⟨⟩
        exact .child hreach hleaf hid hp

theorem rootToLeaf_settled (hnarrow : Narrow h b) (hs : Settled h b t stack) :
    RootToLeaf h b stack := by
  obtain ⟨es, ts, hc, hfit⟩ := hs
  refine ⟨(path_of_climbs hnarrow hc).1, ?_⟩
  rcases stack with - | ⟨ref, rest⟩
  · exact hfit.elim
  · exact ⟨ref, rest, rfl, isLeaf_leaf hc⟩

theorem staysPath_of_settled (ht : AnyTree h b t) (hnarrow : Narrow h b)
    (hfuel : Enough t fuel) (cs : List Call) (hclear : ∀ c ∈ cs, c.Clear h b) :
    ∀ stack, stack = [] ∨ Settled h b t stack → StaysPath h b fuel cs stack := by
  induction cs with
  | nil => exact fun _ _ => trivial
  | cons c cs ih =>
      rw [List.forall_mem_cons] at hclear
      intro stack hstack hcalled
      rcases call_rests ht hfuel hclear.1 hstack with
        ⟨stack', pair, hcall, hstack'⟩ | ⟨hempty, hneeds, -⟩
      swap
      · exact absurd hempty (hcalled hneeds)
      exact ⟨stack', pair, hcall, hstack'.imp_right (rootToLeaf_settled hnarrow),
        ih hclear.2 stack' hstack'⟩

/-- **The stack is always a path from the root to a leaf**, or empty, whatever
is called, on pages and nodes, as long as a branch page holds at most 65536
elements. -/
theorem stays_path (ht : AnyTree h b t) (hnarrow : Narrow h b) (hfuel : Enough t fuel)
    {c : Call} (hc : c.Starts) {cs : List Call} (hclear : ∀ c' ∈ c :: cs, c'.Clear h b)
    (stack₀ : Stack) : StaysPath h b fuel (c :: cs) stack₀ := by
  rw [List.forall_mem_cons] at hclear
  obtain ⟨stack, pair, hcall, hset⟩ := call_starts ht hfuel hc hclear.1 stack₀
  exact fun _ => ⟨stack, pair, hcall, Or.inr (rootToLeaf_settled hnarrow hset),
    staysPath_of_settled ht hnarrow hfuel cs hclear.2 stack (Or.inr hset)⟩

/-! ### Samples -/

theorem reaches_sample {s : Bucket.PageNode} (hs : Reaches (sampleHeap []) sampleBucket s) :
    s = (none, some 1) ∨ s = (some 4096, none) ∨ s = (none, some 2) := by
  induction hs with
  | root hp => cases hp; exact Or.inl rfl
  | @child s s' i id hs hleaf hid hp ih =>
      rcases ih with rfl | rfl | rfl
      · obtain ⟨x, hx, rfl⟩ := hid
        match i, hx with
        | 0, hx => cases hx; cases hp; exact Or.inr (Or.inl rfl)
        | 1, hx => cases hx; cases hp; exact Or.inr (Or.inr rfl)
      · exact absurd hleaf (by decide)
      · cases hleaf

/-- The only page of the sample is the leaf at 4096. -/
theorem page_sample {p : Nat} (hp : Reaches (sampleHeap []) sampleBucket (some p, none)) :
    p = 4096 := by
  rcases reaches_sample hp with h | h | h <;> cases h
  rfl

theorem pagesTyped_sample : PagesTyped (sampleHeap []) sampleBucket := by
  intro p hp
  rw [page_sample hp]
  decide

theorem anyTree_sample : AnyTree (sampleHeap []) sampleBucket (sampleTree []) :=
  ⟨(hasTree_sample []).unbounded rfl, branchesNonempty_sample [], pagesTyped_sample⟩

theorem narrow_sample : Narrow (sampleHeap []) sampleBucket := by
  intro p hp hleaf
  rw [page_sample hp] at hleaf
  exact absurd hleaf (by decide)

/-- Room behind the page. -/
def sampleVec (_ : Nat) : Nat := 8192

theorem vectorsAway_sample (key : Slice) :
    VectorsAway (sampleHeap []) sampleBucket sampleVec key := by
  refine ⟨fun h' d q p hv hp => ?_, fun h' d q p hv hp => ?_⟩
  · rw [page_sample hp]
    exact Or.inr (by decide : 4096 + 32 ≤ 8192)
  · rw [page_sample hp]
    refine Or.inr ?_
    show Page.ptr (sampleHeap []).mem 4096 + 16 * (Page.count (sampleHeap []).mem 4096).toNat ≤ 8192
    decide

theorem enough_sample : Enough (sampleTree []) 20 := by
  show (sampleTree []).size + (sampleTree []).width * (sampleTree []).weight < 20
  decide

theorem starts_first : Call.first.Starts := trivial

def sampleCalls : List Call := [.first, .prev, .seek [98] sampleVec, .next, .keyValue]

theorem clear_sampleCalls :
    ∀ c ∈ sampleCalls, c.Clear (sampleHeap []) sampleBucket := by
  simp only [sampleCalls, List.forall_mem_cons]
  exact ⟨trivial, trivial, vectorsAway_sample _, trivial, trivial, fun _ h => (by cases h)⟩

theorem stays_path_sample : StaysPath (sampleHeap []) sampleBucket 20 sampleCalls [] :=
  stays_path anyTree_sample narrow_sample enough_sample starts_first clear_sampleCalls []

/-- `prev` at the front is followed by `seek`. -/
theorem calls_return_sample :
    ∃ stack, calls (sampleHeap []) sampleBucket 20 sampleCalls [] = .ok stack := by
  refine (calls_return_iff anyTree_sample enough_sample starts_first
    clear_sampleCalls []).mpr ?_
  refine ⟨fun h => (by cases h), fun _ _ _ => ⟨fun _ _ => trivial, fun _ _ _ => ?_⟩⟩
  exact ⟨fun h => (by cases h), fun _ _ _ => ⟨fun h => (by cases h), fun _ _ _ =>
    ⟨fun h => (by cases h), fun _ _ _ => trivial⟩⟩⟩

/-- After `prev` at the front, neither `next` nor `keyValue` returns. -/
theorem next_after_front :
    AnyTree (sampleHeap []) sampleBucket (sampleTree []) ∧
      calls (sampleHeap []) sampleBucket 20 [.first, .prev, .next] []
        = .error (.assertion "this->stack_.size() > 0") ∧
      calls (sampleHeap []) sampleBucket 20 [.first, .prev, .keyValue] [] = .error .emptyBack :=
  ⟨anyTree_sample, rfl, rfl⟩

/-! ### A branch page that is too wide -/

/-- All children have the id 4, but the last one has 5. -/
def wideChild (i : Nat) : INode := { wideInode i with id := if i = 65536 then 5 else 4 }

def wideChildren : List INode := (List.range 65537).map wideChild

/-- A branch page of 65537 elements at page 3; all nodes are empty leaves. -/
def wideBranchHeap : Heap where
  mem := (Page.setCount (Page.construct (fun _ => 0) 77824 3 BranchPageFlag 77856) 77824
    65537).write 77856 (image false wideChildren)
  node _ := ⟨true, false, [], 0, none, []⟩

def wideBranchBucket : Bucket :=
  { wideBucket with nodes := fun id => if id = 4 then some 1 else if id = 5 then some 2 else none }

def wideBranchTree : Tree :=
  .branch 65537 (fun i => (wideChild i).key) fun _ => .leaf []

theorem length_image_wideChildren : (image false wideChildren).length < 2 ^ 32 := by
  rw [length_image, wideChildren, length_payload_map (fun _ => rfl), List.length_map,
    List.length_range]
  decide

theorem wideChild_page {i : Nat} (hi : i < 65537) :
    BranchPageElement.id wideBranchHeap.mem (77856 + 16 * i) = (wideChild i).id ∧
      BranchPageElement.key wideBranchHeap.mem (77856 + 16 * i) = (wideChild i).key :=
  HoldsImage.branchElement (holdsImage_write _ _ _ _) length_image_wideChildren
    (getElem?_map_range wideChild hi)

theorem wideBranch_header :
    Page.flags wideBranchHeap.mem 77824 = BranchPageFlag ∧
      (Page.count wideBranchHeap.mem 77824).toNat = 65537 ∧
        Page.ptr wideBranchHeap.mem 77824 = 77856 :=
  wide_header rfl (by decide) (by decide) _

theorem pageNode_wideRoot : wideBranchBucket.pageNode 3 = .ok (some 77824, none) := by
  have hpage : DB.page { data_ := 65536, pageSize_ := 4096 } 3 = 77824 := by decide
  rw [← hpage]
  rfl

/-- Both ids resolve to empty leaves. -/
theorem pageNode_wideChild (i : Nat) :
    wideBranchBucket.pageNode (wideChild i).id = .ok (none, some (if i = 65536 then 2 else 1)) := by
  rw [wideChild]
  split <;> rfl

theorem hasTree_wideBranch :
    HasTree wideBranchHeap wideBranchBucket unboundedLayout wideBranchTree := by
  obtain ⟨hflags, hcount, hptr⟩ := wideBranch_header
  refine ⟨rfl, _, pageNode_wideRoot, fun i => (wideChild i).id,
    ⟨by rw [hflags]; decide, hcount, trivial, fun i => ?_⟩,
    fun i => ⟨_, pageNode_wideChild i, rfl, rfl⟩⟩
  rw [hptr]
  exact (wideChild_page i.isLt).symm

theorem holdsId_wideRoot {i : Nat} {id : Pgid}
    (hid : HoldsId wideBranchHeap (some 77824, none) i id) : id = (wideChild i).id := by
  obtain ⟨-, hcount, hptr⟩ := wideBranch_header
  obtain ⟨hlt, rfl⟩ := hid
  rw [hcount] at hlt
  rw [hptr]
  exact (wideChild_page hlt).1

theorem reaches_wideBranch {s : Bucket.PageNode}
    (hs : Reaches wideBranchHeap wideBranchBucket s) :
    s = (some 77824, none) ∨ ∃ n, s = (none, some n) := by
  induction hs with
  | root hp =>
      have hp : wideBranchBucket.pageNode 3 = _ := hp
      rw [pageNode_wideRoot] at hp
      exact Or.inl (Except.ok.inj hp).symm
  | child hs hleaf hid hp ih =>
      rcases ih with rfl | ⟨n, rfl⟩
      · rw [holdsId_wideRoot hid, pageNode_wideChild] at hp
        exact Or.inr ⟨_, (Except.ok.inj hp).symm⟩
      · cases hleaf

theorem anyTree_wideBranch : AnyTree wideBranchHeap wideBranchBucket wideBranchTree := by
  refine ⟨hasTree_wideBranch, ⟨by decide, fun _ => trivial⟩, fun p hp => ?_⟩
  rcases reaches_wideBranch hp with h | ⟨n, h⟩
  · cases h
    rw [wideBranch_header.1]
    decide
  · cases h

/-- `last` steps to index 65536 of the root and reads the id of child 0. -/
theorem last_wideBranch (k : Nat) :
    last wideBranchHeap wideBranchBucket (k + 2) []
      = .ok ([⟨none, some 1, -1⟩, ⟨some 77824, none, 65536⟩], none, none) := by
  obtain ⟨hflags, hcount, hptr⟩ := wideBranch_header
  have hcount' : ElemRef.count wideBranchHeap ⟨some 77824, none, 0⟩ = .ok 65537 := by
    simp only [ElemRef.count, hcount]
    rfl
  have hleaf : ElemRef.isLeaf wideBranchHeap ⟨some 77824, none, 65536⟩ = .ok false := by
    simp only [ElemRef.isLeaf, hflags]
    rfl
  have hslot : (toUInt16 65536).toNat = 0 := by decide
  have hchild : ElemRef.childId wideBranchHeap ⟨some 77824, none, 65536⟩
      = .ok (wideChild 0).id := by
    simp only [ElemRef.childId, Page.branchPageElement, hptr, hslot]
    exact congrArg Except.ok (wideChild_page (by decide)).1
  have hnode : wideBranchBucket.pageNode (wideChild 0).id = .ok (none, some 1) :=
    pageNode_wideChild 0
  have hempty : ElemRef.count wideBranchHeap ⟨none, some 1, 0⟩ = .ok 0 := rfl
  have hdescend : last_ wideBranchHeap wideBranchBucket (k + 2) [⟨some 77824, none, 65536⟩]
      = .ok [⟨none, some 1, -1⟩, ⟨some 77824, none, 65536⟩] := by
    rw [last_]
    simp only [back, pure_bind, hleaf, ok_bind, Bool.false_eq_true, if_false, hchild, hnode, hempty]
    rfl
  exact last_returns hasTree_wideBranch pageNode_wideRoot hcount' hdescend rfl []

/-- **On a page of 65537 elements the stack is not a path**: at index 65536 it
goes on with the child of index 0. -/
theorem wide_branch_page :
    AnyTree wideBranchHeap wideBranchBucket wideBranchTree ∧
      ∀ fuel, Enough wideBranchTree fuel →
        ¬ StaysPath wideBranchHeap wideBranchBucket fuel [.last] [] := by
  refine ⟨anyTree_wideBranch, fun fuel hfuel hstays => ?_⟩
  have hfuel : wideBranchTree.size + wideBranchTree.width * wideBranchTree.weight < fuel := hfuel
  have hsize := size_child_lt 65537 (fun i => (wideChild i).key)
    (fun _ => (.leaf [] : Tree)) ⟨0, by decide⟩
  have hleafSize : (.leaf [] : Tree).size = 1 := rfl
  rw [← wideBranchTree, hleafSize] at hsize
  obtain ⟨k, rfl⟩ : ∃ k, fuel = k + 2 := ⟨fuel - 2, by omega⟩
  obtain ⟨stack, pair, hcall, hpath, -⟩ := hstays fun h => by rcases h with h | h <;> cases h
  rw [call, last_wideBranch] at hcall
  cases hcall
  rcases hpath with hnil | ⟨hpath, -⟩
  · cases hnil
  · cases hpath with
    | child hpath hleaf hcount h0 hlt hid hp =>
        rw [show Int.toNat 65536 = 65536 from rfl] at hid
        rw [holdsId_wideRoot hid, pageNode_wideChild] at hp
        cases hp

end Cursor

end BoltCpp
