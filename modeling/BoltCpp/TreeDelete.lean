/-
BoltCpp/TreeDelete.lean

`deleteCurrent` in a bucket of nodes.

Wherever calls have left the cursor, the node on top of its stack is the leaf
to which the separators route the current key (`of_climbs`).  If `deleteCurrent`
returns, which takes a tree of ten levels, it has therefore erased the current
key from the map the tree stands for; if it throws or an assertion fails, the
heap is as it was (`deleteCurrent_spec`).  The map can lose nothing else over
any number of rounds of calls and deletions (`deletes_spec`).
-/
import BoltCpp.CursorDelete
import BoltCpp.TreeMap

namespace BoltCpp

open KeyedList MultiTree

namespace NodeTree

variable {h : Heap} {b : Bucket} {S : NodeTree}

/-! ### Stacks in a tree of nodes -/

/-- A search for a key that the child has goes to that child. -/
theorem routes_of_mem {n : Nat} {sep : Fin n → Slice} {child : Fin n → Tree}
    (ho : (MultiTree.branch n sep child).Ordered Entry.key) {j : Fin n} {e : Entry}
    (he : e ∈ (child j).elements) : Routes sep e.key j :=
  ⟨(ho.2.2 j e he).1, fun _ hlt => ho.lt_sep hlt he⟩

/-- What the id in slot `i` of a branch resolves to. -/
theorem Fits.child {p : NodePtr} {n : Nat} {child : Fin n → NodeTree}
    (hS : (branch p n child).Fits h b) {i : Nat} {id : Pgid}
    (hid : HoldsId h (none, some p) i id) :
    ∃ hi : i < n, b.pageNode id = .ok (none, some (child ⟨i, hi⟩).ptr) ∧
      (child ⟨i, hi⟩).Fits h b := by
  obtain ⟨x, hx, rfl⟩ := hid
  have hi : i < n := by
    rw [← hS.2.1]
    exact (List.getElem?_eq_some_iff.mp hx).1
  have hchild := hS.2.2 ⟨i, hi⟩
  simp only [inodeAt, hx, Option.getD_some] at hchild
  exact ⟨hi, hchild⟩

/-- **A climb goes through the nodes of the tree**, along the route of every key
that lies below. -/
theorem of_climbs (hroot : b.pageNode b.root = .ok (none, some S.ptr)) (hS : S.Fits h b)
    (ho : (S.contents h).Ordered Entry.key) {stack : Cursor.Stack} {us : List Tree}
    (hc : Climbs h b (S.contents h) stack us) :
    ∀ {ref rest u ts}, stack = ref :: rest → us = u :: ts →
      ∃ T : NodeTree, (ref.page, ref.node) = (none, some T.ptr) ∧ T.Fits h b ∧
        T.contents h = u ∧ u.Ordered Entry.key ∧
        ∀ e ∈ u.elements, e ∈ (S.contents h).elements ∧
          ∀ q, RoutesTo h e.key T q → RoutesTo h e.key S q := by
  induction hc with
  | @root ref hp hs =>
      rintro _ _ _ _ ⟨⟩ ⟨⟩
      rw [hp] at hroot
      exact ⟨S, Except.ok.inj hroot, hS, rfl, ho, fun e he => ⟨he, fun q hq => hq⟩⟩
  | @child ref ref' rest n sep c ts j id hc hin hslot hid hp hs ih =>
      rintro _ _ _ _ ⟨⟩ ⟨⟩
      obtain ⟨T, hT, hfits, hcont, horder, hroute⟩ := ih rfl rfl
      cases T with
      | leaf p => cases hcont
      | branch p n' child =>
          cases hcont
          -- the id in slot `j` of the node is that of child `j`
          rw [hT] at hid
          obtain ⟨hj, hchild, hfitsj⟩ := hfits.child hid
          rw [hp] at hchild
          refine ⟨child j, Except.ok.inj hchild, hfitsj, rfl, horder.2.1 j, fun e he => ?_⟩
          have hmem : e ∈ ((branch p n child).contents h).elements := by
            rw [contents, elements_branch _ _ j]
            exact List.mem_append_left _ (List.mem_append_right _ he)
          refine ⟨(hroute e hmem).1, fun q hq => (hroute e hmem).2 q (.branch ?_ hq)⟩
          exact routes_of_mem horder he

/-- There are no pages. -/
theorem Fits.not_reaches (hS : S.Fits h b)
    (hroot : b.pageNode b.root = .ok (none, some S.ptr)) {s : Bucket.PageNode}
    (hs : Reaches h b s) : ∃ T : NodeTree, s = (none, some T.ptr) ∧ T.Fits h b := by
  induction hs with
  | root hp =>
      rw [hp] at hroot
      exact ⟨S, Except.ok.inj hroot, hS⟩
  | @child s s' i id hs hleaf hid hp ih =>
      obtain ⟨T, rfl, hfits⟩ := ih
      cases T with
      | leaf p =>
          have : (⟨none, some p, 0⟩ : ElemRef).isLeaf h = .ok true :=
            isLeaf_of_stored_leaf (hfits.stored nodeLayout)
          rw [NodeTree.ptr, this] at hleaf
          cases hleaf
      | branch p n child =>
          obtain ⟨hi, hchild, hfitsi⟩ := hfits.child hid
          rw [hp] at hchild
          exact ⟨child ⟨i, hi⟩, Except.ok.inj hchild, hfitsi⟩

theorem Holds.no_page (hS : S.Holds h b) {p : Nat} : ¬ Reaches h b (some p, none) := by
  intro hp
  obtain ⟨T, hT, -⟩ := hS.fits.not_reaches hS.root hp
  cases hT

theorem Holds.anyTree (hS : S.Holds h b) : Cursor.AnyTree h b (S.contents h) :=
  ⟨hS.hasTree _, hS.nonempty, fun _ hp => absurd hp hS.no_page⟩

/-- A search copies nothing. -/
theorem Holds.clear (hS : S.Holds h b) (c : Cursor.Call) : c.Clear h b := by
  cases c with
  | seek key vec =>
      exact ⟨fun _ _ _ _ _ hp => absurd hp hS.no_page, fun _ _ _ _ _ hp => absurd hp hS.no_page⟩
  | first => trivial
  | last => trivial
  | next => trivial
  | prev => trivial
  | keyValue => trivial

end NodeTree

namespace Cursor

variable {h : Heap} {b : Bucket} {S : NodeTree} {tx : Transaction}
  {materialise : Pgid → Option NodePtr → Option NodePtr} {fuel k : Nat} {stack : Stack}

/-! ### One deletion -/

/-- **Everything `deleteCurrent` can do**: nothing, or `Node::del` of the current
key on the node of the cursor. -/
theorem deleteCurrent_cases (h : Heap) (tx : Transaction)
    (materialise : Pgid → Option NodePtr → Option NodePtr) (fuel : Nat) (stack : Stack) :
    (∃ e, deleteCurrent tx materialise fuel stack h = .error e h) ∨
      ∃ key value flags n nd, keyValue h stack = .ok (some key, value, flags) ∧
        node h materialise fuel stack = .ok n ∧ (h.node n).del key = .ok nd ∧
        deleteCurrent tx materialise fuel stack h = .ok () (h.setNode n nd) := by
  have hget : (get : EStateM DeleteStop Heap Heap) h = .ok h h := rfl
  rw [deleteCurrent]
  by_cases hclosed : tx.db_.isNone = true
  · exact Or.inl ⟨.threw "transaction was closed", by rw [if_pos hclosed]; rfl⟩
  by_cases hreader : (!tx.writable_) = true
  · exact Or.inl ⟨.threw "transaction was not writable",
      by rw [if_neg hclosed, if_pos hreader]; rfl⟩
  rw [if_neg hclosed, if_neg hreader, bind_ok hget]
  rcases hkv : keyValue h stack with e | ⟨key, value, flags⟩
  · exact Or.inl ⟨_, bind_error (reading_error e h)⟩
  rw [bind_ok (reading_ok _ h)]
  by_cases hbucket : flags &&& BucketLeafFlag ≠ 0
  · exact Or.inl ⟨.threw "incompatible value", by simp only [if_pos hbucket]; rfl⟩
  simp only [if_neg hbucket]
  rcases hnode : node h materialise fuel stack with e | n
  · exact Or.inl ⟨_, bind_error (reading_error e h)⟩
  rw [bind_ok (reading_ok n h)]
  rcases key with - | key
  · exact Or.inl ⟨.noKey, rfl⟩
  rcases hdel : (h.node n).del key with e | nd
  · have hread : reading ((h.node n).del key) h = .error (.fault e) h := by
      rw [hdel, reading_error]
    exact Or.inl ⟨_, bind_error hread⟩
  · have hread : reading ((h.node n).del key) h = .ok nd h := by rw [hdel, reading_ok]
    exact Or.inr ⟨key, value, flags, n, nd, rfl, rfl, hdel, bind_ok hread⟩

theorem key_ne_nil_of_del {n nd : Node} {key : Slice} (hdel : n.del key = .ok nd) :
    key ≠ [] := by
  rintro rfl
  cases hdel

/-- `del` on a leaf in order. -/
theorem del_entries {n nd : Node} (hn : Sorted INode.key n.inodes) {key : Slice}
    (hdel : n.del key = .ok nd) :
    nd.isLeaf_ = n.isLeaf_ ∧
      nd.inodes.map INode.entry = KeyedList.erase Entry.key key (n.inodes.map INode.entry) := by
  rw [Node.del_eq hn (key_ne_nil_of_del hdel)] at hdel
  cases hdel
  exact ⟨rfl, Node.map_erase _ _⟩

/-- The element of a settled stack, and the leaf it is in. -/
theorem routesTo_of_settled (hS : S.Holds h b) (hs : Settled h b (S.contents h) stack)
    {key : Slice} {value : Option Slice} {flags : UInt32}
    (hkv : keyValue h stack = .ok (some key, value, flags)) :
    ∃ ref rest q, stack = ref :: rest ∧ ref.isLeaf h = .ok true ∧ ref.node = some q ∧
      NodeTree.RoutesTo h key S q ∧ ∃ e ∈ (S.contents h).elements, e.key = key := by
  obtain ⟨es, i, fs, hat, hlt⟩ := at_of_settled (hS.hasTree _) hs ⟨_, hkv, rfl⟩
  obtain ⟨es', ts, hc, -⟩ := hs
  rcases hat.linked with - | ⟨hr, hrest⟩
  rename_i ref rest
  -- the climb and the position end in one leaf
  obtain rfl : es = es' :=
    MultiTree.leaf.inj (Stored.unique (Stored.unbounded rfl hr.stored) hc.stored)
  rw [keyValue_of_at fileLayout_faithful hat, List.getElem?_eq_getElem hlt] at hkv
  cases hkv
  obtain ⟨T, hT, hfits, hcont, -, hroute⟩ :=
    NodeTree.of_climbs hS.root hS.fits hS.ordered hc rfl rfl
  cases T with
  | branch p n child => cases hcont
  | leaf q =>
      have hmem : es[i] ∈ (MultiTree.leaf es : Tree).elements := by
        rw [elements_leaf]
        exact List.getElem_mem hlt
      obtain ⟨hin, hq⟩ := hroute es[i] hmem
      exact ⟨ref, rest, q, rfl, isLeaf_of_stored_leaf hr.stored, congrArg Prod.snd hT,
        hq q (.leaf q), es[i], hin, rfl⟩

/-- **What `deleteCurrent` does to the tree**, after any calls that have begun at
the root: nothing, or it erases the current key. -/
theorem deleteCurrent_spec (hS : S.Holds h b) (hfuel : Enough (S.contents h) k) {c : Call}
    (hc : c.Starts) {cs : List Call} (hrun : calls h b k (c :: cs) [] = .ok stack) :
    (∃ e, deleteCurrent tx materialise fuel stack h = .error e h) ∨
      ∃ key value flags q nd, keyValue h stack = .ok (some key, value, flags) ∧
        (∃ e ∈ (S.contents h).elements, e.key = key) ∧ q ∈ S.ptrs ∧
        deleteCurrent tx materialise fuel stack h = .ok () (h.setNode q nd) ∧
        S.contents (h.setNode q nd) = (S.contents h).update key (KeyedList.erase Entry.key key) ∧
        S.Holds (h.setNode q nd) b := by
  rcases deleteCurrent_cases h tx materialise fuel stack with
    herror | ⟨key, value, flags, n, nd, hkv, hnode, hdel, hdone⟩
  · exact Or.inl herror
  have hsettled : Settled h b (S.contents h) stack := by
    obtain ⟨stack₁, pair, hcall, hs₁⟩ := call_starts hS.anyTree hfuel hc (hS.clear c) []
    rw [calls_cons hcall] at hrun
    rcases calls_rest hS.anyTree hfuel cs (fun c' _ => hS.clear c') (Or.inr hs₁) hrun with rfl | hs
    · cases hkv
    · exact hs
  obtain ⟨ref, rest, q, rfl, hleaf, hq, hroute, hmem⟩ := routesTo_of_settled hS hsettled hkv
  -- the node of the cursor is that of the reference on top
  obtain rfl : n = q := by
    rcases node_of_leaf h materialise fuel rest hleaf with ⟨n', -, hn', hok⟩ | ⟨-, e, herror⟩
    · rw [hnode] at hok
      cases hok
      rw [hq] at hn'
      exact (Option.some.inj hn').symm
    · rw [hnode] at herror
      cases herror
  obtain ⟨hisLeaf, hentries⟩ := del_entries (hroute.sorted hS.ordered) hdel
  exact Or.inr ⟨key, value, flags, n, nd, hkv, hmem, hroute.mem_ptrs, hdone,
    hS.setNode hroute (localAt_erase key) hisLeaf hentries⟩

/-! ### Rounds -/

/-- A cursor that begins at the root and moves about. -/
structure Walk where
  start : Call
  starts : start.Starts
  moves : List Call

/-- Rounds of calls and deletions: the heaps they lead to, and the keys under the
cursor whenever `deleteCurrent` returned. -/
inductive Deletes (b : Bucket) (tx : Transaction)
    (materialise : Pgid → Option NodePtr → Option NodePtr) (fuel k : Nat) (h : Heap) :
    List Slice → Heap → Prop
  | refl : Deletes b tx materialise fuel k h [] h
  | refused {keys : List Slice} {h₁ h₂ : Heap} {stack : Stack} {e : DeleteStop}
      (hd : Deletes b tx materialise fuel k h keys h₁) (w : Walk)
      (hcalls : calls h₁ b k (w.start :: w.moves) [] = .ok stack)
      (hdelete : deleteCurrent tx materialise fuel stack h₁ = .error e h₂) :
      Deletes b tx materialise fuel k h keys h₂
  | removed {keys : List Slice} {h₁ h₂ : Heap} {stack : Stack} {key : Slice}
      {value : Option Slice} {flags : UInt32}
      (hd : Deletes b tx materialise fuel k h keys h₁) (w : Walk)
      (hcalls : calls h₁ b k (w.start :: w.moves) [] = .ok stack)
      (hkv : keyValue h₁ stack = .ok (some key, value, flags))
      (hdelete : deleteCurrent tx materialise fuel stack h₁ = .ok () h₂) :
      Deletes b tx materialise fuel k h (keys ++ [key]) h₂

theorem enough_update {t : Tree} {key : Slice} {f : List Entry → List Entry}
    (hfuel : Enough t k) : Enough (t.update key f) k := by
  rw [Enough, size_update, steps_update]
  exact hfuel

/-- **Rounds of deletions erase the keys the cursor stood on**, and nothing else.
Whatever calls are made in between and whatever fails: the nodes keep a search
tree, its map is the first one without the keys, each of which was bound until
then, and no other node and no memory changes. -/
theorem deletes_spec {f : KeyedMap Entry.key} (hS : S.Holds h b)
    (hfuel : Enough (S.contents h) k) (hf : Represents (S.contents h).elements f)
    {keys : List Slice} {h' : Heap} (hd : Deletes b tx materialise fuel k h keys h') :
    S.Holds h' b ∧ Represents (S.contents h').elements (keys.foldl KeyedMap.erase f) ∧
      keys.Nodup ∧ (∀ key ∈ keys, f.toFun key ≠ none) ∧
      h'.mem = h.mem ∧ ∀ r ∉ S.ptrs, h'.node r = h.node r := by
  suffices hinv : S.Holds h' b ∧ Enough (S.contents h') k ∧
      Represents (S.contents h').elements (keys.foldl KeyedMap.erase f) ∧ keys.Nodup ∧
      (∀ key ∈ keys, f.toFun key ≠ none) ∧ h'.mem = h.mem ∧ ∀ r ∉ S.ptrs, h'.node r = h.node r by
    exact ⟨hinv.1, hinv.2.2⟩
  induction hd with
  | refl => exact ⟨hS, hfuel, hf, List.nodup_nil, fun _ h => absurd h List.not_mem_nil, rfl,
      fun _ _ => rfl⟩
  | refused hd w hcalls hdelete ih =>
      obtain ⟨hS₁, hfuel₁, hrest⟩ := ih
      rcases deleteCurrent_spec hS₁ hfuel₁ w.starts hcalls with
        ⟨e', herror⟩ | ⟨_, _, _, _, _, -, -, -, hdone, -⟩
      · rw [hdelete] at herror
        cases herror
        exact ⟨hS₁, hfuel₁, hrest⟩
      · rw [hdelete] at hdone
        cases hdone
  | @removed keys h₁ h₂ stack key value flags hd w hcalls hkv hdelete ih =>
      obtain ⟨hS₁, hfuel₁, hf₁, hnodup, hlive, hmem, hnode⟩ := ih
      rcases deleteCurrent_spec hS₁ hfuel₁ w.starts hcalls with
        ⟨e', herror⟩ | ⟨key', _, _, q, nd, hkv', ⟨e, he, hkey⟩, hq, hdone, hcont, hS₂⟩
      · rw [hdelete] at herror
        cases herror
      rw [hkv] at hkv'
      cases hkv'
      rw [hdelete] at hdone
      cases hdone
      -- the key was bound, so it has not been removed before
      have hbound : (keys.foldl KeyedMap.erase f).toFun key = some e := by
        rw [← hkey]
        exact (hf₁.mem_iff e).mp he
      rw [KeyedMap.foldl_erase_apply] at hbound
      have hnew : key ∉ keys := fun h => by simp [h] at hbound
      rw [if_neg hnew] at hbound
      refine ⟨hS₂, hcont ▸ enough_update hfuel₁, ?_, ?_, ?_, hmem, fun r hr => ?_⟩
      · rw [hcont, elements_update (localAt_erase key) hS₁.ordered hS₁.nonempty,
          List.foldl_append]
        exact hf₁.erase key
      · exact List.nodup_append.mpr ⟨hnodup, List.nodup_singleton _, fun a ha b hb => by
          rw [List.mem_singleton.mp hb]
          rintro rfl
          exact hnew ha⟩
      · intro k' hk'
        rcases List.mem_append.mp hk' with hk' | hk'
        · exact hlive k' hk'
        · rw [List.mem_singleton.mp hk', hbound]
          exact Option.some_ne_none e
      · rw [Heap.setNode_node_of_ne, hnode r hr]
        rintro rfl
        exact hr hq

/-- The nodes of `chainHeap`, below `k` branches. -/
def chainShape : Nat → NodeTree
  | 0 => .leaf 10
  | k + 1 => .branch (10 - (k + 1)) 1 fun _ => chainShape k

theorem ptr_chainShape (k : Nat) : (chainShape k).ptr = 10 - k := by
  cases k with
  | zero => rfl
  | succ k => rfl

theorem chainHeap_branch {k : Nat} (hk : k + 1 ≤ 10) :
    chainHeap.node (10 - (k + 1))
      = ⟨false, false, [], 0, none, [{ id := UInt64.ofNat (10 - k), key := [97] }]⟩ := by
  have hid : 10 - (k + 1) + 1 = 10 - k := by omega
  rw [← hid]
  exact if_pos (show 10 - (k + 1) < 10 by omega)

theorem contents_chainShape (k : Nat) (hk : k ≤ 10) :
    (chainShape k).contents chainHeap = chainTree k := by
  induction k with
  | zero => rfl
  | succ k ih =>
      simp only [chainShape, NodeTree.contents, chainHeap_branch hk, ih (by omega)]
      refine congrArg₂ (MultiTree.branch 1) (funext fun i => ?_) rfl
      obtain rfl : i = 0 := Fin.fin_one_eq_zero i
      rfl

theorem fits_chainShape (k : Nat) (hk : k ≤ 10) :
    (chainShape k).Fits chainHeap chainBucket := by
  induction k with
  | zero => rfl
  | succ k ih =>
      rw [chainShape, NodeTree.Fits, chainHeap_branch hk]
      refine ⟨rfl, rfl, fun i => ⟨?_, ih (by omega)⟩⟩
      obtain rfl : i = 0 := Fin.fin_one_eq_zero i
      rw [ptr_chainShape]
      show Except.ok (none, some (UInt64.ofNat (10 - k)).toNat) = _
      rw [UInt64.toNat_ofNat', Nat.mod_eq_of_lt (by omega)]

theorem ordered_chainTree (k : Nat) : (chainTree k).Ordered Entry.key := by
  induction k with
  | zero =>
      show List.Pairwise _ _
      decide
  | succ k ih =>
      exact ⟨fun i j hij => by omega, fun _ => ih, fun i e _ =>
        ⟨fun hi => by omega, fun j hj => by omega⟩⟩

theorem holds_chainShape : (chainShape 9).Holds chainHeap chainBucket := by
  refine ⟨rfl, rfl, fits_chainShape 9 (by decide), by decide, ?_, ?_⟩
  · rw [contents_chainShape 9 (by decide)]
    exact ordered_chainTree 9
  · rw [contents_chainShape 9 (by decide)]
    exact branchesNonempty_chain 9

def chainMap : KeyedMap Entry.key :=
  ((KeyedMap.empty Entry.key).insert ⟨0, [98], []⟩).insert ⟨0, [99], [1]⟩

theorem represents_chainMap :
    Represents ((chainShape 9).contents chainHeap).elements chainMap := by
  have hempty : Represents ([] : List Entry) (KeyedMap.empty Entry.key) := Represents.empty
  rw [contents_chainShape 9 (by decide)]
  exact (hempty.insert ⟨0, [98], []⟩).insert ⟨0, [99], [1]⟩

/-- The key under the cursor, ten levels deep, leaves the map. -/
theorem deletes_sample :
    ∃ h', Deletes chainBucket (writer chainBucket) (fun _ _ => none) 0 20 chainHeap [[99]] h' ∧
      Represents ((chainShape 9).contents h').elements (chainMap.erase [99]) := by
  have hfuel : Enough ((chainShape 9).contents chainHeap) 20 := by
    rw [contents_chainShape 9 (by decide)]
    exact enough_chain
  have hkv : keyValue chainHeap chainStack = .ok (some [99], some [1], 0) := by decide +kernel
  have hdone : ∃ h', deleteCurrent (writer chainBucket) (fun _ _ => none) 0 chainStack chainHeap
      = .ok () h' := ⟨_, rfl⟩
  obtain ⟨h', hdelete⟩ := hdone
  have hd : Deletes chainBucket (writer chainBucket) (fun _ _ => none) 0 20 chainHeap [[99]] h' :=
    .removed .refl ⟨.first, trivial, [.next]⟩ calls_chainStack hkv hdelete
  exact ⟨h', hd, (deletes_spec holds_chainShape hfuel represents_chainMap hd).2.1⟩

end Cursor

end BoltCpp
