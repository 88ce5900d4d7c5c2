/-
BoltCpp/Seek.lean

`seek` over a bucket whose tree is held in nodes.

`search` descends to the child the separators allow (`searchNode_eq`), so the
path it leaves on the stack separates the smaller keys from the larger ones
(`search_spec`).  After `seek` the cursor therefore stands at the least key
that is not below the one sought, with the larger ones ahead of it, whichever
way it got there (`seek_spec`).  What `seek` returns is another matter: it
answers nil whenever it has found a key (`seek_returns_iff`).
-/
import BoltCpp.Forward
import BoltCpp.KeySearch
import BoltCpp.NodeMap

namespace BoltCpp

open ByteMem MultiTree

namespace Cursor

variable {h : Heap} {b : Bucket} {t : Tree} {fuel : Nat} {key : Slice}

/-! ### The descent -/

/-- **`searchNode`** chooses a child that the separators allow. -/
theorem searchNode_eq {nd : Node} {n : Nat} {sep : Fin n → Slice} {id : Fin n → Pgid}
    (hinodes : nd.inodes.map (fun x => (x.key, x.id)) = List.ofFn fun i => (sep i, id i))
    (hsep : StrictMono sep) (hn : 0 < n) (key : Slice) :
    ∃ c : Fin n, searchNode nd key = .ok ((c : Nat), id c) ∧ Routes sep key c := by
  have hkeys : nd.inodes.map INode.key = List.ofFn sep := by
    have := congrArg (List.map Prod.fst) hinodes
    simpa [List.map_ofFn, Function.comp_def] using this
  obtain ⟨c, hc, hroutes⟩ := routes_childOf hsep hn key
  have hx : (nd.inodes.map fun x => (x.key, x.id))[(c : Nat)]? = some (sep c, id c) := by
    rw [hinodes, List.getElem?_ofFn]
    simp
  rw [List.getElem?_map, Option.map_eq_some_iff] at hx
  obtain ⟨x, hx, hxc⟩ := hx
  have hid : x.id = id c := congrArg Prod.snd hxc
  refine ⟨c, ?_, hroutes⟩
  rw [searchNode_eq_childOf, hkeys, hc, vecAt_ofNat hx, ok_bind, hid]
  rfl

/-- Where everything is a node, so is what an id resolves to. -/
theorem pageNode_of_stored {u : Tree} {id : Pgid} {s : Bucket.PageNode}
    (hid : b.pageNode id = .ok s) (hs : Stored h b nodeLayout u s) : ∃ n, s = (none, some n) := by
  obtain ⟨p, n⟩ := s
  rcases n with - | n
  · -- a page is ruled out by the layout
    exfalso
    rcases p with - | p
    · cases u with
      | leaf es => exact hs
      | branch k sep child =>
          obtain ⟨_, hc, -⟩ := hs
          exact hc
    · cases u with
      | leaf es => exact hs.2.2.1
      | branch k sep child =>
          obtain ⟨_, hc, -⟩ := hs
          exact hc.2.2.1
  · have hp : p = none := Bucket.pageNode_node hid
    exact ⟨n, by rw [hp]⟩

theorem lowerBound_entries {nd : Node} {es : List Entry}
    (hes : nd.inodes.map INode.entry = es) :
    Node.lowerBound nd.inodes key = KeyedList.lowerBound Entry.key es key := by
  rw [Node.lowerBound_eq, ← hes]
  exact Bisect.lowerBound_congr (by rw [List.map_map]; rfl)

/-- **`search` ends in the leaf for the key**, at its lower bound, with the
smaller keys left of the path and the larger ones right of it.  The induction
is on the subtree the id resolves to. -/
theorem search_spec (vec : Nat → Nat) (u : Tree) :
    ∀ {fuel : Nat} {id : Pgid} {s : Bucket.PageNode} {rest : Stack} {fs : List TreeFrame},
      b.pageNode id = .ok s → Stored h b nodeLayout u s → Linked h b nodeLayout rest fs →
      Path t ((u, 0) :: fs) → Separates Entry.key key fs → u.Ordered Entry.key →
      u.BranchesNonempty → u.size ≤ fuel →
      ∃ stack es fs', search b vec key fuel h id rest = .ok stack ∧
        At h b nodeLayout t stack es (KeyedList.lowerBound Entry.key es key) fs' ∧
        Separates Entry.key key fs' := by
  induction u with
  | leaf es =>
      intro fuel id s rest fs hid hs hl hp hsep _ _ hfuel
      obtain ⟨k, rfl⟩ : ∃ k, fuel = k + 1 := ⟨fuel - 1, by simp [MultiTree.size] at hfuel; omega⟩
      obtain ⟨n, rfl⟩ := pageNode_of_stored hid hs
      have hleaf : (⟨none, some n, 0⟩ : ElemRef).isLeaf h = .ok true := isLeaf_of_stored_leaf hs
      refine ⟨⟨none, some n, (KeyedList.lowerBound Entry.key es key : Nat)⟩ :: rest, es, fs, ?_,
        ⟨.cons ⟨hs, rfl⟩ hl, hp.reindex _⟩, hsep⟩
      simp only [search, hid, ok_bind, pure_bind, hleaf, nsearch, if_true,
        lowerBound_entries hs.2]
      rfl
  | branch n sep child ih =>
      intro fuel id s rest fs hid hs hl hp hsep ho hne hfuel
      obtain ⟨q, rfl⟩ := pageNode_of_stored hid hs
      have hleaf : (⟨none, some q, 0⟩ : ElemRef).isLeaf h = .ok false :=
        isLeaf_of_stored_branch hs
      have hstored := hs
      obtain ⟨ids, hc, hchild⟩ := hstored
      -- the child `searchNode` chooses is one the separators allow
      obtain ⟨c, hsearch, hroutes⟩ := searchNode_eq hc.2 ho.1 hne.1 key
      obtain ⟨s', hs', hst'⟩ := hchild c
      have hlt := size_child_lt n sep child c
      obtain ⟨k, rfl⟩ : ∃ k, fuel = k + 1 := ⟨fuel - 1, by omega⟩
      have hk : (child c).size ≤ k := by omega
      have hlinked : Linked h b nodeLayout (⟨none, some q, (c : Nat)⟩ :: rest)
          ((.branch n sep child, (c : Nat)) :: fs) := .cons ⟨hs, rfl⟩ hl
      obtain ⟨stack, es, fs', hrun, hat, hsep'⟩ := ih c hs' hst' hlinked
        (.child (hp.reindex _) c.isLt 0) (hsep.descend ho hroutes) (ho.2.1 c) (hne.2 c) hk
      refine ⟨stack, es, fs', ?_, hat, hsep'⟩
      simp only [search, hid, ok_bind, hleaf, Bool.false_eq_true, if_false, hsearch]
      exact hrun

/-! ### `seek` -/

/-- The entries whose key is not below `key`, in ascending order. -/
def entriesFrom (t : Tree) (key : Slice) : List Entry :=
  t.elements.filter fun e => key ≤ e.key

theorem mem_entriesFrom {e : Entry} :
    e ∈ entriesFrom t key ↔ e ∈ t.elements ∧ key ≤ e.key := by
  simp [entriesFrom]

theorem sorted_entriesFrom (ho : t.Ordered Entry.key) :
    (entriesFrom t key).Pairwise fun x y => x.key < y.key :=
  (ho.sorted_elements).filter _

section

variable (ht : HasTree h b nodeLayout t) (hne : t.BranchesNonempty)
  (ho : t.Ordered Entry.key) (hfuel : t.size < fuel)

include ht hne ho hfuel in
/-- `seek_` stands at the lower bound of the key in one leaf; nothing between
there and the next entries to the right is skipped. -/
theorem seek_of_tree (vec : Nat → Nat) (key : Slice) (stack₀ : Stack) :
    ∃ stack es i fs, At h b nodeLayout t stack es i fs ∧
      seek_ h b vec fuel key stack₀ = .ok (stack, keyValueOf es[i]?) ∧
      entriesFrom t key = es.drop i ++ (leavesAfter fs).flatten := by
  obtain ⟨s, hroot, hs⟩ := ht.root
  obtain ⟨stack, es, fs, hsearch, hat, hsep⟩ := search_spec vec t hroot hs .nil (.root 0)
    (Separates.nil key) ho hne (Nat.le_of_lt hfuel)
  refine ⟨stack, es, _, fs, hat, ?_, hat.path.filter_ge hsep (ho.of_path hat.path)⟩
  rcases hat.linked with - | ⟨hr, hrest⟩
  rename_i ref rest
  have hcount : ref.count h = .ok (es.length : Int) :=
    count_of_stored nodeLayout_faithful hr.stored
  have hindex : ref.index = (KeyedList.lowerBound Entry.key es key : Nat) := hr.index
  simp only [seek_, assertOpen_ok ht, ok_bind, hsearch, back, pure_bind, hcount, hindex]
  -- inside the leaf `seek_` returns the entry, at its end nil
  by_cases hend : KeyedList.lowerBound Entry.key es key < es.length
  · rw [if_neg (by omega), keyValue_of_at nodeLayout_faithful hat]
    rfl
  · rw [if_pos (by omega), List.getElem?_eq_none (by omega)]
    rfl

include ht hne ho hfuel in
/-- **`seek` positions the cursor** on the least key that is not below the one
sought, with the larger keys right of it; and it returns nil. -/
theorem seek_spec (vec : Nat → Nat) (key : Slice) (stack₀ : Stack) :
    ∃ stack es i fs, seek h b vec fuel key stack₀ = .ok (stack, none, none) ∧
      At h b nodeLayout t stack es i fs ∧ es[i]? = (entriesFrom t key).head? ∧
      after ((.leaf es, i) :: fs) = (entriesFrom t key).tail := by
  obtain ⟨stack, es, i, fs, hat, hseek, hfrom⟩ := seek_of_tree ht hne ho hfuel vec key stack₀
  rcases hat.linked with - | ⟨hr, hrest⟩
  rename_i ref rest
  have hcount : ref.count h = .ok (es.length : Int) :=
    count_of_stored nodeLayout_faithful hr.stored
  have hindex : ref.index = (i : Nat) := hr.index
  by_cases hend : i < es.length
  · -- the leaf has the key sought or a larger one: `k` is set, and nil is returned
    refine ⟨ref :: rest, es, i, fs, ?_, hat, ?_, ?_⟩
    · have hsome : (keyValueOf es[i]?).1.isSome = true := by
        rw [List.getElem?_eq_getElem hend]
        rfl
      simp only [seek, hseek, ok_bind, back, pure_bind, hcount, hindex]
      rw [if_neg (by omega), if_pos hsome]
      rfl
    · rw [hfrom, List.drop_eq_getElem_cons hend, List.getElem?_eq_getElem hend]
      rfl
    · rw [hfrom, List.drop_eq_getElem_cons hend]
      rfl
  · -- past the end of the leaf: the entry sought, if any, is the next one
    have hout : es[i]? = none := List.getElem?_eq_none (by omega)
    obtain ⟨stack', kv, es', i', fs', hrun, hstep⟩ :=
      next_spec nodeLayout_faithful hne hfuel hat
    have hafter : after ((.leaf es, i) :: fs) = entriesFrom t key := by
      rw [hfrom, after, List.drop_eq_nil_of_le (by omega), List.drop_eq_nil_of_le (by omega)]
    refine ⟨stack', es', i', fs', ?_, hstep.at', by rw [hstep.current hout, hafter],
      by rw [hstep.after, hafter]⟩
    simp only [seek, hseek, ok_bind, back, pure_bind, hcount, hindex]
    rw [if_pos (by omega), hrun, ok_bind]
    rcases hkv : (after ((.leaf es, i) :: fs)).head? with - | e
    · rw [hstep.result, hkv]
      rfl
    · rw [hstep.result, hkv]
      rfl

include ht hne ho hfuel in
/-- **`seek` positions the cursor for a range scan.**  With `R` the entries
whose keys are not below the one sought, in ascending order, `keyValue` is
about the first of them, and repeated `next` returns the others and then
nil. -/
theorem seek_range_scan (vec : Nat → Nat) (key : Slice) (stack₀ : Stack) :
    ∃ R : List Entry, (R.Pairwise fun x y => x.key < y.key) ∧
      (∀ e, e ∈ R ↔ e ∈ t.elements ∧ key ≤ e.key) ∧
      ∃ stack pair, seek h b vec fuel key stack₀ = .ok (stack, pair) ∧
        keyValue h stack = .ok (keyValueOf R.head?) ∧
        ∀ k, nexts h b fuel k stack = .ok ((List.range k).map fun j => pairOf R.tail[j]?) := by
  obtain ⟨stack, es, i, fs, hseek, hat, hhead, htail⟩ := seek_spec ht hne ho hfuel vec key stack₀
  refine ⟨entriesFrom t key, sorted_entriesFrom ho, fun e => mem_entriesFrom, stack, _, hseek,
    ?_, fun k => ?_⟩
  · rw [keyValue_of_at nodeLayout_faithful hat, hhead]
  · rw [nexts_spec nodeLayout_faithful ht hne hfuel k hat, htail]

end

/-- Two leaves with an empty one between them, all of them nodes.  The first
key is below its separator. -/
def seekHeap : Heap where
  mem _ := 0
  node n :=
    if n = 1 then ⟨false, false, [], 2, none, [{ id := 3, key := [98] }, { id := 4, key := [99] },
      { id := 5, key := [100] }]⟩
    else if n = 2 then ⟨true, false, [], 3, some 1, [{ key := [97], value := [1] }]⟩
    else if n = 3 then ⟨true, false, [], 4, some 1, []⟩
    else ⟨true, false, [], 5, some 1, [{ key := [100], value := [2] }]⟩

def seekBucket : Bucket where
  root := 2
  tx_ := { db_ := some { data_ := 65536, pageSize_ := 4096 }, pages_ := fun _ => none }
  page := none
  rootNode := none
  nodes id := some (id.toNat - 1)

def seekTree : Tree :=
  .branch 3 ![[98], [99], [100]] ![.leaf [⟨0, [97], [1]⟩], .leaf [], .leaf [⟨0, [100], [2]⟩]]

theorem hasTree_seek : HasTree seekHeap seekBucket nodeLayout seekTree := by
  refine ⟨rfl, (none, some 1), rfl, ![3, 4, 5], ⟨rfl, rfl⟩, fun i => ?_⟩
  match i with
  | 0 => exact ⟨(none, some 2), rfl, rfl, rfl⟩
  | 1 => exact ⟨(none, some 3), rfl, rfl, rfl⟩
  | 2 => exact ⟨(none, some 4), rfl, rfl, rfl⟩

theorem branchesNonempty_seek : seekTree.BranchesNonempty := by
  refine ⟨by decide, fun i => ?_⟩
  match i with
  | 0 => trivial
  | 1 => trivial
  | 2 => trivial

theorem ordered_seek : seekTree.Ordered Entry.key := by
  refine ⟨fun i j => ?_, fun i => ?_, fun i => ?_⟩
  · revert i j
    decide
  · match i with
    | 0 => exact List.pairwise_singleton _ _
    | 1 => exact List.Pairwise.nil
    | 2 => exact List.pairwise_singleton _ _
  · match i with
    | 0 => decide
    | 1 => decide
    | 2 => decide

theorem seek_range_scan_sample :
    ∃ R : List Entry, (R.Pairwise fun x y => x.key < y.key) ∧
      (∀ e, e ∈ R ↔ e ∈ seekTree.elements ∧ [98, 5] ≤ e.key) ∧
      ∃ stack pair, seek seekHeap seekBucket (fun _ => 0) 5 [98, 5] [] = .ok (stack, pair) ∧
        keyValue seekHeap stack = .ok (keyValueOf R.head?) ∧
        ∀ k, nexts seekHeap seekBucket 5 k stack
          = .ok ((List.range k).map fun j => pairOf R.tail[j]?) :=
  seek_range_scan hasTree_seek branchesNonempty_seek ordered_seek (by decide) _ [98, 5] []

/-! ### What `seek` returns -/

/-- What `seek` is to return: the pair of the entry with the least key that is
not below the one sought, or nil if there is none. -/
structure LowerBoundPair (t : Tree) (key : Slice) (pair : Pair) : Prop where
  found : ∀ e ∈ t.elements, key ≤ e.key →
    (∀ e' ∈ t.elements, key ≤ e'.key → e.key ≤ e'.key) → pair = pairOf (some e)
  absent : (∀ e ∈ t.elements, e.key < key) → pair = (none, none)

/-- **`seek` returns the lower bound exactly when there is none.** -/
theorem seek_returns_iff (ht : HasTree h b nodeLayout t) (hne : t.BranchesNonempty)
    (ho : t.Ordered Entry.key) (hfuel : t.size < fuel) (vec : Nat → Nat) (key : Slice)
    (stack₀ : Stack) :
    (∃ stack pair, seek h b vec fuel key stack₀ = .ok (stack, pair) ∧
        LowerBoundPair t key pair) ↔
      ∀ e ∈ t.elements, e.key < key := by
  obtain ⟨stack, es, i, fs, hseek, -⟩ := seek_spec ht hne ho hfuel vec key stack₀
  constructor
  · rintro ⟨stack', pair, hseek', hpair⟩
    obtain rfl : pair = (none, none) := by
      rw [hseek] at hseek'
      exact (congrArg Prod.snd (Except.ok.inj hseek')).symm
    rcases hR : entriesFrom t key with - | ⟨e, R⟩
    · intro e he
      by_contra hge
      have : e ∈ entriesFrom t key := mem_entriesFrom.mpr ⟨he, not_lt.mp hge⟩
      rw [hR] at this
      cases this
    · -- the first of the entries from `key` on is the least
      have hsorted : (entriesFrom t key).Pairwise fun x y => x.key < y.key := sorted_entriesFrom ho
      rw [hR, List.pairwise_cons] at hsorted
      obtain ⟨he, hle⟩ := mem_entriesFrom.mp (hR ▸ List.mem_cons_self : e ∈ entriesFrom t key)
      refine absurd (hpair.found e he hle fun e' he' hle' => ?_).symm (pairOf_some_ne_nil e)
      have hmem : e' ∈ e :: R := hR ▸ mem_entriesFrom.mpr ⟨he', hle'⟩
      rcases List.mem_cons.mp hmem with rfl | hmem
      · exact le_refl _
      · exact le_of_lt (hsorted.1 e' hmem)
  · intro hbelow
    refine ⟨stack, _, hseek, ⟨fun e he hle => ?_, fun _ => rfl⟩⟩
    exact absurd (hbelow e he) (not_lt.mpr hle)

theorem seek_returns_sample :
    ∃ stack pair, seek seekHeap seekBucket (fun _ => 0) 5 [101] [] = .ok (stack, pair) ∧
      LowerBoundPair seekTree [101] pair :=
  (seek_returns_iff hasTree_seek branchesNonempty_seek ordered_seek (by decide) _ [101] []).mpr
    (by decide)

/-- Seeking a key that is there returns nil. -/
theorem seek_loses_key :
    (∃ stack, seek seekHeap seekBucket (fun _ => 0) 5 [100] [] = .ok (stack, none, none)) ∧
      (⟨0, [100], [2]⟩ : Entry) ∈ seekTree.elements ∧
      ¬ ∃ stack pair, seek seekHeap seekBucket (fun _ => 0) 5 [100] [] = .ok (stack, pair) ∧
        LowerBoundPair seekTree [100] pair := by
  refine ⟨⟨_, rfl⟩, by decide, ?_⟩
  rintro ⟨stack, pair, hseek, hpair⟩
  obtain rfl : pair = (none, none) := (congrArg Prod.snd (Except.ok.inj hseek)).symm
  have := hpair.found ⟨0, [100], [2]⟩ (by decide) (by decide) (by decide)
  revert this
  decide

end Cursor

end BoltCpp
