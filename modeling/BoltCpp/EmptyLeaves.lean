/-
BoltCpp/EmptyLeaves.lean

What empty leaves do to `last` and to `next`.

`first` and `next_` go on when they land in an empty leaf; `last` does not, so
it misses the last entry whenever the rightmost leaf is empty
(`findsLast_iff`).  And where `next_` goes on, it does not come back: if only
empty leaves lie to the right, it returns nil and leaves the cursor in the
last of them (`next_end`).

The second half puts this together for a cursor that any calls have moved
about.  `Climbs` says of their stack where it leads; on pages of at most 65536
elements that is a position in the tree (`linked_of_climbs`).
-/
import BoltCpp.Backward
import BoltCpp.CursorCalls

namespace BoltCpp

namespace Cursor

open ByteMem MultiTree

variable {h : Heap} {b : Bucket} {L : Layout} {t : Tree} {fuel : Nat} {stack : Stack}
  {es : List Entry} {i : Nat} {fs : List TreeFrame}

/-! ### `last` -/

/-- What `last` is for: it returns the last entry of the tree and moves the
cursor there. -/
def FindsLast (h : Heap) (b : Bucket) (L : Layout) (t : Tree) (fuel : Nat) (stack₀ : Stack) :
    Prop :=
  ∃ stack, last h b fuel stack₀ = .ok (stack, pairOf t.elements.getLast?) ∧
    (t.elements ≠ [] → OnEntry h b L t stack (t.elements.length - 1))

/-- **When `last` finds the last entry**: whenever the rightmost leaf is not
empty.  If it is, there must be nothing to find. -/
theorem findsLast_iff (hL : L.Faithful) (ht : HasTree h b L t) (hb : t.BranchesNonempty)
    (hfuel : t.size < fuel) (stack₀ : Stack) :
    FindsLast h b L t fuel stack₀ ↔ t.leaves.getLast? ≠ some [] ∨ t.elements = [] := by
  obtain ⟨stack, es, ls, hrun, hleaves, hon⟩ := last_lands hL ht hb hfuel stack₀
  rw [FindsLast, hrun, hleaves, List.getLast?_concat]
  rcases es with - | ⟨e, es⟩
  · -- the answer is nil
    have hiff : (some ([] : List Entry) ≠ some [] ∨ t.elements = []) ↔ t.elements = [] := by simp
    rw [hiff]
    constructor
    · rintro ⟨stack', heq, -⟩
      by_contra hne
      rw [List.getLast?_eq_some_getLast hne] at heq
      exact pairOf_some_ne_nil _ (congrArg Prod.snd (Except.ok.inj heq)).symm
    · intro hnil
      rw [hnil]
      exact ⟨stack, rfl, fun h => absurd rfl h⟩
  · have hne : e :: es ≠ [] := List.cons_ne_nil e es
    rw [getLast?_elements hleaves hne]
    exact iff_of_true ⟨stack, rfl, fun _ => hon hne⟩ (Or.inl fun h => hne (Option.some.inj h))

theorem findsLast_sample :
    FindsLast (sampleHeap sampleInodes) sampleBucket fileLayout (sampleTree sampleInodes) 4 []
      ↔ (sampleTree sampleInodes).leaves.getLast? ≠ some [] ∨
        (sampleTree sampleInodes).elements = [] :=
  findsLast_iff fileLayout_faithful (hasTree_sample sampleInodes)
    (branchesNonempty_sample sampleInodes) (by decide) []

/-- Behind two entries lies an empty leaf, and `last` returns nil. -/
theorem last_misses :
    HasTree (sampleHeap []) sampleBucket fileLayout (sampleTree []) ∧
      (sampleTree []).BranchesNonempty ∧ (sampleTree []).elements.length = 2 ∧
      last (sampleHeap []) sampleBucket 4 [] = .ok ([⟨none, some 2, -1⟩, ⟨none, some 1, 1⟩],
        none, none) ∧
      ¬ FindsLast (sampleHeap []) sampleBucket fileLayout (sampleTree []) 4 [] := by
  refine ⟨hasTree_sample [], branchesNonempty_sample [], by decide, rfl, fun hfinds => ?_⟩
  obtain ⟨stack, hrun, -⟩ := hfinds
  have hnil : last (sampleHeap []) sampleBucket 4 []
      = .ok ([⟨none, some 2, -1⟩, ⟨none, some 1, 1⟩], none, none) := rfl
  rw [hnil] at hrun
  have hlen : (sampleTree []).elements ≠ [] := by decide
  rw [List.getLast?_eq_some_getLast hlen] at hrun
  exact pairOf_some_ne_nil _ (congrArg Prod.snd (Except.ok.inj hrun)).symm

/-! ### Running off the end -/

section

variable (hL : L.Faithful)

include hL in
/-- **`next_` past the last entry** returns nil.  With no leaf to the right the
stack stays as it is, otherwise it ends in an empty leaf.  The induction is on
the restarts. -/
theorem nextLoop_end (hb : t.BranchesNonempty) (hfuel : t.size < fuel) :
    ∀ (restarts : Nat) {stack : Stack} {es : List Entry} {i : Nat} {fs : List TreeFrame},
      At h b L t stack es i fs → (leavesAfter fs).length < restarts →
      after ((.leaf es, i) :: fs) = [] →
      ∃ stack', nextLoop h b fuel restarts stack = .ok (stack', none, none, 0) ∧
        (leavesAfter fs = [] → stack' = stack) ∧
        (leavesAfter fs ≠ [] → keyValue h stack' = .ok (keyValueOf none)) := by
  intro restarts
  induction restarts with
  | zero => intro stack es i fs _ hr; omega
  | succ restarts ih =>
      intro stack es i fs hat hr hafter
      obtain ⟨hdrop, hflat⟩ := List.append_eq_nil_iff.mp hafter
      have hi : ¬ i + 1 < es.length := by
        have := List.drop_eq_nil_iff.mp hdrop
        omega
      rcases hadvance : advance ((.leaf es, i) :: fs) with - | fs₁
      · -- nothing to the right
        have hleaves : leavesAfter fs = [] := by
          simpa using leavesAfter_of_advance_none hadvance
        refine ⟨stack, ?_, fun _ => rfl, fun hne => absurd hleaves hne⟩
        simp only [nextLoop, (stepForward_spec hL hat.linked).1 hadvance, ok_bind]
        rfl
      · obtain ⟨stack₁, stack₂, es₂, fs₂, hstep, hfirst, hat₂, hleaves⟩ :=
          step_to_leaf hL hb hat hadvance hi hfuel
        -- that leaf has no entries either, and the loop restarts from there
        rw [hleaves, List.flatten_cons] at hflat
        obtain ⟨rfl, hflat₂⟩ := List.append_eq_nil_iff.mp hflat
        rcases hl₂ : hat₂.linked with - | ⟨hr₂, hrest₂⟩
        rename_i ref rest
        have hcount : ref.count h = .ok (0 : Int) := count_of_stored hL hr₂.stored
        rw [hleaves, List.length_cons] at hr
        obtain ⟨stack', hrun, hsame, hnil⟩ := ih hat₂ (by omega) hflat₂
        refine ⟨stack', ?_, fun h0 => ?_, fun _ => ?_⟩
        · simp only [nextLoop, hstep, ok_bind, hfirst, back, pure_bind, hcount, if_true]
          exact hrun
        · rw [hleaves] at h0
          cases h0
        · by_cases h0 : leavesAfter fs₂ = []
          · rw [hsame h0]
            exact keyValue_of_at hL hat₂
          · exact hnil h0

include hL in
theorem next_end (ht : HasTree h b L t) (hb : t.BranchesNonempty) (hfuel : t.size < fuel)
    (hat : At h b L t stack es i fs) (hafter : after ((.leaf es, i) :: fs) = []) :
    ∃ stack', next h b fuel stack = .ok (stack', none, none) ∧
      (leavesAfter fs = [] → stack' = stack) ∧
      (leavesAfter fs ≠ [] → keyValue h stack' = .ok (keyValueOf none)) := by
  obtain ⟨stack', hrun, hends⟩ :=
    nextLoop_end hL hb hfuel fuel hat (length_leavesAfter_lt hat.path hfuel) hafter
  refine ⟨stack', ?_, hends⟩
  simp only [next, assertOpen_ok ht, ok_bind, next_, if_pos hat.length_pos, hrun]
  rfl

/-- The cursor is on an element. -/
def OnElement (h : Heap) (stack : Stack) : Prop :=
  ∃ kv, keyValue h stack = .ok kv ∧ kv.1.isSome = true

/-- If `next` returns nil the cursor is still on the same element. -/
def StaysAtEnd (h : Heap) (b : Bucket) (fuel : Nat) (stack : Stack) : Prop :=
  ∃ stack' pair, next h b fuel stack = .ok (stack', pair) ∧
    (pair = (none, none) → keyValue h stack' = keyValue h stack)

include hL in
/-- **When running off the end leaves the cursor in place**: unless all leaves
to the right, at least one, are empty. -/
theorem staysAtEnd_iff (ht : HasTree h b L t) (hb : t.BranchesNonempty) (hfuel : t.size < fuel)
    (hat : At h b L t stack es i fs) (hi : i < es.length) :
    StaysAtEnd h b fuel stack ↔ after ((.leaf es, i) :: fs) ≠ [] ∨ leavesAfter fs = [] := by
  by_cases hafter : after ((.leaf es, i) :: fs) = []
  · obtain ⟨stack', hrun, hsame, hnil⟩ := next_end hL ht hb hfuel hat hafter
    rw [StaysAtEnd, hrun]
    by_cases h0 : leavesAfter fs = []
    · exact iff_of_true ⟨stack', _, rfl, fun _ => by rw [hsame h0]⟩ (Or.inr h0)
    · refine iff_of_false ?_ (by simp [hafter, h0])
      rintro ⟨stack'', pair, heq, hstays⟩
      cases heq
      have hkv := (hnil h0).symm.trans (hstays rfl)
      rw [keyValue_of_at hL hat, List.getElem?_eq_getElem hi] at hkv
      cases hkv
  · -- there is an entry to the right, and `next` returns it
    obtain ⟨stack', kv, es', i', fs', hrun, -⟩ := next_eq hL ht hb hfuel hat
    obtain ⟨e, he⟩ := Option.isSome_iff_exists.mp (List.isSome_head?.mpr hafter)
    refine iff_of_true ⟨stack', _, hrun, fun hnil => ?_⟩ (Or.inl hafter)
    rw [he] at hnil
    exact absurd hnil (pairOf_some_ne_nil e)

end

/-! ### After any calls -/

/-- **On pages of at most 65536 elements a climb is a path** in the tree. -/
theorem linked_of_climbs (ht : HasTree h b fileLayout t) {u : Tree} {ts : List Tree}
    (hc : Climbs h b t stack (u :: ts)) :
    ∃ ref rest fs, stack = ref :: rest ∧ Stored h b fileLayout u (ref.page, ref.node) ∧
      Linked h b fileLayout rest fs ∧ ∀ i, Path t ((u, i) :: fs) := by
  generalize hus : u :: ts = us at hc
  induction hc generalizing u ts with
  | @root ref hp hs =>
      cases hus
      obtain ⟨s, hp', hs'⟩ := ht.root
      rw [hp] at hp'
      cases hp'
      exact ⟨ref, [], [], rfl, hs', .nil, .root⟩
  | @child ref ref' rest n sep c ts' j id hc hin hslot hid hp hs ih =>
      cases hus
      obtain ⟨_, _, fs, ⟨⟩, hstored, hlinked, hpath⟩ := ih rfl
      -- the index is that of the child, and the id that of the child
      have hindex : ref.index = (j : Nat) := hslot.index_eq hin fun hnode => by
        obtain ⟨page, node, index⟩ := ref
        obtain rfl : node = none := hnode
        exact width_le_of_page hstored
      obtain ⟨_, s', hp', hs'⟩ := child_of_holdsId rfl hstored hid
      rw [hp] at hp'
      cases hp'
      exact ⟨ref', ref :: rest, _, rfl, hs', .cons ⟨hstored, hindex⟩ hlinked,
        .child (hpath j) j.isLt⟩

/-- A settled stack on an element is a position of the tree. -/
theorem at_of_settled (ht : HasTree h b fileLayout t) (hs : Settled h b t stack)
    (hon : OnElement h stack) :
    ∃ es i fs, At h b fileLayout t stack es i fs ∧ i < es.length := by
  obtain ⟨es, ts, hc, hfit⟩ := hs
  obtain ⟨kv, hkv, hsome⟩ := hon
  obtain ⟨ref, rest, fs, rfl, hstored, hlinked, hpath⟩ := linked_of_climbs ht hc
  cases hfit with
  | inside h0 =>
      obtain ⟨i, hi⟩ := Int.eq_ofNat_of_zero_le h0
      have hat : At h b fileLayout t (ref :: rest) es i fs :=
        ⟨.cons ⟨hstored, hi⟩ hlinked, hpath i⟩
      refine ⟨es, i, fs, hat, ?_⟩
      rw [keyValue_of_at fileLayout_faithful hat] at hkv
      cases hkv
      by_contra hout
      rw [List.getElem?_eq_none (by omega)] at hsome
      cases hsome
  | empty hindex hlen =>
      have hlast : LastRef h b fileLayout ref (.leaf es) :=
        ⟨hstored, by rw [hindex, MultiTree.width, hlen]; rfl⟩
      rw [keyValue_of_last fileLayout_faithful hlast, List.length_eq_zero_iff.mp hlen] at hkv
      cases hkv
      cases hsome
  | wrapped hnode hlen =>
      obtain ⟨page, node, index⟩ := ref
      obtain rfl : node = none := hnode
      have := width_le_of_page hstored
      rw [MultiTree.width] at this
      omega

/-- **Where calls leave a cursor that is on an element**: at a position of the
tree. -/
theorem at_of_calls (ht : HasTree h b fileLayout t) (hb : t.BranchesNonempty)
    (htyped : PagesTyped h b) (hfuel : Enough t fuel) {c : Call} (hc : c.Starts)
    {cs : List Call} (hclear : ∀ c' ∈ c :: cs, c'.Clear h b) {stack₀ : Stack}
    (hrun : calls h b fuel (c :: cs) stack₀ = .ok stack) (hon : OnElement h stack) :
    ∃ es i fs, At h b fileLayout t stack es i fs ∧ i < es.length := by
  have hany : AnyTree h b t := ⟨ht.unbounded rfl, hb, htyped⟩
  rw [List.forall_mem_cons] at hclear
  obtain ⟨stack₁, pair, hcall, hs₁⟩ := call_starts hany hfuel hc hclear.1 stack₀
  rw [calls_cons hcall] at hrun
  rcases calls_rest hany hfuel cs hclear.2 (Or.inr hs₁) hrun with rfl | hs
  · -- no element without a stack
    obtain ⟨kv, hkv, -⟩ := hon
    cases hkv
  · exact at_of_settled ht hs hon

/-- **When a cursor stays on the last element.**  Whatever was called, on pages
and nodes: `next` does not move a cursor off the end exactly if an entry lies
to the right of its element, or no leaf at all. -/
theorem calls_stay_iff (ht : HasTree h b fileLayout t) (hb : t.BranchesNonempty)
    (htyped : PagesTyped h b) (hfuel : Enough t fuel) {c : Call} (hc : c.Starts)
    {cs : List Call} (hclear : ∀ c' ∈ c :: cs, c'.Clear h b) {stack₀ : Stack}
    (hrun : calls h b fuel (c :: cs) stack₀ = .ok stack) (hon : OnElement h stack) :
    ∃ es i fs, At h b fileLayout t stack es i fs ∧ i < es.length ∧
      (StaysAtEnd h b fuel stack ↔
        after ((.leaf es, i) :: fs) ≠ [] ∨ leavesAfter fs = []) := by
  obtain ⟨es, i, fs, hat, hi⟩ := at_of_calls ht hb htyped hfuel hc hclear hrun hon
  exact ⟨es, i, fs, hat, hi, staysAtEnd_iff fileLayout_faithful ht hb hfuel.size_lt hat hi⟩

/-- On the second entry of the page, in front of the empty leaf. -/
def sampleStack : Stack := [⟨some 4096, none, 1⟩, ⟨none, some 1, 0⟩]

theorem calls_sampleStack :
    calls (sampleHeap []) sampleBucket 20 [.first, .next] [] = .ok sampleStack := rfl

theorem keyValue_sampleStack :
    keyValue (sampleHeap []) sampleStack = .ok (some [98, 0], some [1, 2], 0) := by
  decide +kernel

theorem calls_stay_sample :
    ∃ es i fs, At (sampleHeap []) sampleBucket fileLayout (sampleTree []) sampleStack es i fs ∧
      i < es.length ∧
      (StaysAtEnd (sampleHeap []) sampleBucket 20 sampleStack ↔
        after ((.leaf es, i) :: fs) ≠ [] ∨ leavesAfter fs = []) := by
  have hclear : ∀ c ∈ [Call.first, Call.next], c.Clear (sampleHeap []) sampleBucket := by
    simp only [List.forall_mem_cons]
    exact ⟨trivial, trivial, fun _ h => (by cases h)⟩
  exact calls_stay_iff (hasTree_sample []) (branchesNonempty_sample []) pagesTyped_sample
    enough_sample starts_first hclear calls_sampleStack
    ⟨(some [98, 0], some [1, 2], 0), keyValue_sampleStack, rfl⟩

/-- `next` returns nil there, and the cursor is no longer on an element. -/
theorem next_leaves_element :
    AnyTree (sampleHeap []) sampleBucket (sampleTree []) ∧
      calls (sampleHeap []) sampleBucket 20 [.first, .next] [] = .ok sampleStack ∧
      keyValue (sampleHeap []) sampleStack = .ok (some [98, 0], some [1, 2], 0) ∧
      (∃ stack, next (sampleHeap []) sampleBucket 20 sampleStack = .ok (stack, none, none) ∧
        keyValue (sampleHeap []) stack = .ok (none, none, 0)) ∧
      ¬ StaysAtEnd (sampleHeap []) sampleBucket 20 sampleStack := by
  have hnext : next (sampleHeap []) sampleBucket 20 sampleStack
      = .ok ([⟨none, some 2, 0⟩, ⟨none, some 1, 1⟩], none, none) := by decide +kernel
  have hnil : keyValue (sampleHeap []) [⟨none, some 2, 0⟩, ⟨none, some 1, 1⟩]
      = .ok (none, none, 0) := rfl
  refine ⟨anyTree_sample, calls_sampleStack, keyValue_sampleStack, ⟨_, hnext, hnil⟩, ?_⟩
  rintro ⟨stack', pair, hrun, hstays⟩
  rw [hnext] at hrun
  cases hrun
  have hsame := hstays rfl
  rw [hnil, keyValue_sampleStack] at hsame
  cases hsame

end Cursor

end BoltCpp
