/-
BoltCpp/NodeMap.lean

An in-memory node is a sorted map.

The abstract object is the `KeyedMap` of inodes filed under their keys; a
`put` under an unchanged key binds, a `del` unbinds.  On a node with strictly
ascending keys the two source functions act on the inode list as the
library's `insert` and `erase` (`put_eq`, `del_eq`) and `get` is lookup
(`get_eq`).  A run of any length therefore keeps

    Represents n.inodes f

where `f` is the map the same updates build (`runOps_represents`).
-/
import BoltCpp.Node
import BoltCpp.Lib.KeyedList

namespace BoltCpp

open KeyedList

namespace Node

/-! ### The three lookups -/

theorem lowerBound_eq (inodes : List INode) (key : Slice) :
    lowerBound inodes key = KeyedList.lowerBound INode.key inodes key := by
  refine congrArg (Bisect.lowerBound · inodes) (funext fun x => ?_)
  rw [Bool.eq_iff_iff, Slice.lt_iff]
  simp only [decide_eq_true_eq]

/-- `exact` holds when some inode carries the key. -/
theorem exact_iff {n : Node} (h : Sorted INode.key n.inodes) (key : Slice) :
    n.exact key = true ↔ ∃ x ∈ n.inodes, x.key = key := by
  rw [exact, lowerBound_eq]
  constructor
  · intro hex
    rcases hg : n.inodes[KeyedList.lowerBound INode.key n.inodes key]? with - | x
    · simp [hg] at hex
    · simp only [hg, Bool.and_eq_true, Slice.beq_iff] at hex
      exact ⟨x, List.mem_of_getElem? hg, hex.2⟩
  · rintro ⟨x, hx, rfl⟩
    have hpos : n.numChildren > 0 := by
      have := List.length_pos_of_mem hx
      simp only [numChildren]
      omega
    simp [h.getElem?_lowerBound hx, hpos, Slice.beq_iff]

theorem exact_eq_false_iff {n : Node} (h : Sorted INode.key n.inodes) (key : Slice) :
    n.exact key = false ↔ ∀ x ∈ n.inodes, x.key ≠ key := by
  rw [← Bool.not_eq_true, exact_iff h]
  push Not
  rfl

/-- Making room at `i` and then filling it. -/
theorem set_insertIdx {α : Type*} (xs : List α) (d x : α) :
    ∀ i, i ≤ xs.length → (xs.insertIdx i d).set i x = xs.take i ++ x :: xs.drop i := by
  induction xs with
  | nil =>
      intro i hi
      obtain rfl : i = 0 := by simpa using hi
      rfl
  | cons y ys ih =>
      intro i hi
      cases i with
      | zero => rfl
      | succ i =>
          simp only [List.insertIdx_succ_cons, List.set_cons_succ, List.take_succ_cons,
            List.drop_succ_cons, List.cons_append]
          rw [ih i (by simpa using hi)]

/-- The inode list after `put`, before anything is assumed about its order:
the inode at the lower bound of `oldKey` is replaced if it carries that key,
else the new one goes in front of it. -/
theorem put_ok {n : Node} {pgid id : Pgid} {oldKey newKey : Slice} (value : Slice)
    (flags : UInt32) (hid : id < pgid) (ho : oldKey ≠ []) (hn : newKey ≠ []) :
    n.put (some pgid) oldKey newKey value id flags = .ok { n with
      inodes := n.inodes.take (lowerBound n.inodes oldKey)
        ++ { flags := flags, id := id, key := newKey, value := value }
        :: n.inodes.drop (if n.exact oldKey then lowerBound n.inodes oldKey + 1
            else lowerBound n.inodes oldKey) } := by
  have hid' : ¬ id ≥ pgid := UInt64.not_le.mpr hid
  have ho' : ¬ oldKey.length = 0 := by simpa using ho
  have hn' : ¬ newKey.length = 0 := by simpa using hn
  have hle : lowerBound n.inodes oldKey ≤ n.inodes.length := Bisect.lowerBound_le _ _
  simp only [put, hid', ho', hn', if_false]
  by_cases hex : n.exact oldKey = true
  · -- an exact match: the inode at `index` is overwritten
    have hlt : lowerBound n.inodes oldKey < n.inodes.length := by
      rcases hg : n.inodes[lowerBound n.inodes oldKey]? with - | x
      · simp [exact, hg] at hex
      · exact (List.getElem?_eq_some_iff.mp hg).1
    simp only [hex, if_true, List.set_eq_take_append_cons_drop, hlt]
    rfl
  · simp only [hex, Bool.false_eq_true, if_false]
    -- no match: a default inode is inserted at `index` and then overwritten
    rw [set_insertIdx _ _ _ _ hle]
    rfl

/-- On a node in order, `put` files the inode where `oldKey` belongs. -/
theorem put_fileAt {n : Node} (h : Sorted INode.key n.inodes) {pgid id : Pgid}
    {oldKey newKey : Slice} (value : Slice) (flags : UInt32) (hid : id < pgid)
    (ho : oldKey ≠ []) (hn : newKey ≠ []) :
    n.put (some pgid) oldKey newKey value id flags = .ok { n with
      inodes := fileAt INode.key oldKey
        { flags := flags, id := id, key := newKey, value := value } n.inodes } := by
  rw [put_ok value flags hid ho hn, lowerBound_eq]
  by_cases hex : n.exact oldKey = true
  · obtain ⟨y, hy, rfl⟩ := (exact_iff h oldKey).mp hex
    rw [if_pos hex, h.set_lowerBound hy]
  · have hne := (exact_eq_false_iff h oldKey).mp (by simpa using hex)
    rw [if_neg hex, h.insertIdx_lowerBound hne]

/-- Under an unchanged key it binds the key. -/
theorem put_eq {n : Node} (h : Sorted INode.key n.inodes) {pgid id : Pgid} {key : Slice}
    (value : Slice) (flags : UInt32) (hid : id < pgid) (hk : key ≠ []) :
    n.put (some pgid) key key value id flags = .ok { n with
      inodes := KeyedList.insert INode.key
        { flags := flags, id := id, key := key, value := value } n.inodes } := by
  rw [put_fileAt h value flags hid hk hk, ← fileAt_key]

/-- **`put` under a changed key.**  The inode with `oldKey` is replaced in
place; if there is none, the new inode comes where `oldKey` belongs.  The
others stay as they are, and in order exactly if `newKey` lies between the
same neighbours as `oldKey`. -/
theorem put_changed {n : Node} (h : Sorted INode.key n.inodes) {pgid id : Pgid}
    {oldKey newKey : Slice} (value : Slice) (flags : UInt32) (hid : id < pgid)
    (ho : oldKey ≠ []) (hn : newKey ≠ []) :
    ∃ inodes, n.put (some pgid) oldKey newKey value id flags = .ok { n with inodes := inodes } ∧
      (∀ y ∈ n.inodes, y.key = oldKey → ∃ l r, n.inodes = l ++ y :: r ∧
        inodes = l ++ { flags := flags, id := id, key := newKey, value := value } :: r) ∧
      ((∀ y ∈ n.inodes, y.key ≠ oldKey) → ∃ l r, n.inodes = l ++ r ∧
        (∀ y ∈ l, y.key < oldKey) ∧ (∀ y ∈ r, oldKey < y.key) ∧
        inodes = l ++ { flags := flags, id := id, key := newKey, value := value } :: r) ∧
      (Sorted INode.key inodes ↔
        (∀ y ∈ n.inodes, y.key < oldKey → y.key < newKey) ∧
          (∀ y ∈ n.inodes, oldKey < y.key → newKey < y.key)) := by
  refine ⟨_, put_fileAt h value flags hid ho hn, ?_, fun hk => h.fileAt_of_not_mem hk _,
    h.fileAt_iff oldKey _⟩
  rintro y hy rfl
  exact h.fileAt_of_mem hy _

/-- Key 'b' becomes 'c', past its neighbour at 'bb'. -/
theorem put_changed_sample :
    ∃ inodes, (⟨true, false, [], 0, none, [{ key := [98] }, { key := [98, 98] }]⟩ : Node).put
        (some 8) [98] [99] [1] 3 0
          = .ok ⟨true, false, [], 0, none, inodes⟩ ∧ ¬ Sorted INode.key inodes := by
  obtain ⟨inodes, hput, -, -, hsorted⟩ := put_changed
    (n := ⟨true, false, [], 0, none, [{ key := [98] }, { key := [98, 98] }]⟩)
    (show List.Pairwise _ _ by decide) [1] 0 (show (3 : Pgid) < 8 by decide)
    (show ([98] : Slice) ≠ [] by decide) (show ([99] : Slice) ≠ [] by decide)
  refine ⟨inodes, hput, fun h => ?_⟩
  exact absurd ((hsorted.mp h).2 { key := [98, 98] } (by decide) (by decide)) (by decide)

/-- On a node in order, `del` removes the inode with the key, if any. -/
theorem del_eq {n : Node} (h : Sorted INode.key n.inodes) {key : Slice} (hk : key ≠ []) :
    n.del key = .ok { n with
      inodes := KeyedList.erase INode.key key n.inodes
      unbalanced_ := n.exact key || n.unbalanced_ } := by
  have hk' : ¬ key.length = 0 := by simpa using hk
  rw [del, if_neg hk']
  by_cases hex : n.exact key = true
  · obtain ⟨y, hy, rfl⟩ := (exact_iff h key).mp hex
    rw [if_pos hex, lowerBound_eq, List.eraseIdx_eq_take_drop_succ,
      h.eraseIdx_lowerBound hy, hex]
    rfl
  · have hne := (exact_eq_false_iff h key).mp (by simpa using hex)
    -- the key is absent, and `del` returns before it touches anything
    have hall : KeyedList.erase INode.key key n.inodes = n.inodes := by
      rw [KeyedList.erase, List.filter_eq_self]
      intro x hx
      simpa using hne x hx
    rw [if_neg hex, hall, Bool.eq_false_iff.mpr hex]
    rfl

/-- `get` looks the key up in the map the node represents. -/
theorem get_eq {n : Node} {f : KeyedMap INode.key} (h : Represents n.inodes f)
    (key s : Slice) :
    n.get key (some s) = .ok (match f.toFun key with
      | some x => (0, some x.value)
      | none => (-1, some s)) := by
  rcases hf : f.toFun key with - | x
  · have hne : n.exact key = false := by
      rw [exact_eq_false_iff h.sorted]
      intro x hx hxk
      rw [h.mem_iff, hxk, hf] at hx
      cases hx
    simp only [get, hne]
    rfl
  · have hex : n.exact key = true := by
      rw [exact_iff h.sorted]
      have hk := f.keyed key x hf
      exact ⟨x, (h.mem_iff x).mpr (hk ▸ hf), hk⟩
    have hget : n.inodes[lowerBound n.inodes key]? = some x := by
      rw [lowerBound_eq]
      exact h.getElem?_lowerBound hf
    simp only [get, hex, if_true, vecAt_ofNat hget]
    rfl

/-! ### Runs -/

/-- The two updates: `put(k, k, v, id, flags)` and `del(k)`. -/
inductive Op where
  | put (k v : Slice) (id : Pgid) (flags : UInt32)
  | del (k : Slice)

/-- What the callers respect: keys are not empty, and ids are below the
high-water mark. -/
def Op.Valid (pgid : Pgid) : Op → Prop
  | .put k _ id _ => k ≠ [] ∧ id < pgid
  | .del k => k ≠ []

/-- One update of a node. -/
def runOp (pgid : Pgid) (n : Node) : Op → Except Fault Node
  | .put k v id flags => n.put (some pgid) k k v id flags
  | .del k => n.del k

/-- A run of updates. -/
def runOps (pgid : Pgid) (n : Node) (ops : List Op) : Except Fault Node :=
  ops.foldlM (runOp pgid) n

/-- The same update of the abstract map. -/
def Op.apply (f : KeyedMap INode.key) : Op → KeyedMap INode.key
  | .put k v id flags => f.insert { flags := flags, id := id, key := k, value := v }
  | .del k => f.erase k

/-- The map a run builds from the empty one. -/
def mapOf (ops : List Op) : KeyedMap INode.key :=
  ops.foldl Op.apply (KeyedMap.empty INode.key)

/-- One update keeps node and map in step. -/
theorem runOp_represents {pgid : Pgid} {n : Node} {f : KeyedMap INode.key}
    (h : Represents n.inodes f) {op : Op} (hop : op.Valid pgid) :
    ∃ n', runOp pgid n op = .ok n' ∧ Represents n'.inodes (op.apply f) := by
  cases op with
  | put k v id flags =>
      refine ⟨_, put_eq h.sorted v flags hop.2 hop.1, ?_⟩
      exact h.insert { flags := flags, id := id, key := k, value := v }
  | del k => exact ⟨_, del_eq h.sorted hop, h.erase k⟩

/-- Hence so does a run. -/
theorem runOps_represents {pgid : Pgid} {ops : List Op} :
    ∀ {n : Node} {f : KeyedMap INode.key}, Represents n.inodes f →
      (∀ op ∈ ops, op.Valid pgid) →
      ∃ n', runOps pgid n ops = .ok n' ∧ Represents n'.inodes (ops.foldl Op.apply f) := by
  induction ops with
  | nil =>
      intro n f h _
      exact ⟨n, rfl, h⟩
  | cons op ops ih =>
      intro n f h hops
      obtain ⟨n₁, h₁, hr₁⟩ := runOp_represents h (hops op (by simp))
      obtain ⟨n', h', hr'⟩ := ih hr₁ fun o ho => hops o (by simp [ho])
      refine ⟨n', ?_, hr'⟩
      rw [runOps, List.foldlM_cons, h₁]
      exact h'

/-- **A node is a sorted map over whole runs.**  A run of valid updates from
a node without inodes never faults; the inodes are strictly ascending and
are exactly the bindings of the abstract map, there is one per live key,
`get` answers from the map, and any other run that builds the same map
leaves the same inode list.  Every prefix of a run is a run, so this holds
after every step. -/
theorem sorted_map_of_run {n : Node} (hn : n.inodes = []) {pgid : Pgid} {ops : List Op}
    (hops : ∀ op ∈ ops, op.Valid pgid) :
    ∃ n', runOps pgid n ops = .ok n' ∧
      (n'.inodes.Pairwise fun x y => x.key < y.key) ∧
      (∀ x, x ∈ n'.inodes ↔ (mapOf ops).toFun x.key = some x) ∧
      n'.numChildren = ((mapOf ops).live.ncard : Int) ∧
      (∀ key s, n'.get key (some s) = .ok (match (mapOf ops).toFun key with
        | some x => (0, some x.value)
        | none => (-1, some s))) ∧
      ∀ pgid₂ n₂ ops₂ n₂', n₂.inodes = [] → (∀ op ∈ ops₂, op.Valid pgid₂) →
        runOps pgid₂ n₂ ops₂ = .ok n₂' → (mapOf ops₂).toFun = (mapOf ops).toFun →
        n₂'.inodes = n'.inodes := by
  have start : ∀ m : Node, m.inodes = [] → Represents m.inodes (KeyedMap.empty INode.key) := by
    intro m hm
    rw [hm]
    exact Represents.empty
  obtain ⟨n', hrun, hr⟩ := runOps_represents (start n hn) hops
  refine ⟨n', hrun, hr.sorted, hr.mem_iff, ?_, get_eq hr, ?_⟩
  · rw [numChildren, hr.length_eq]
    rfl
  · intro pgid₂ n₂ ops₂ n₂' hn₂ hops₂ hrun₂ hmap
    -- the second run represents its own map, which is the first one's
    obtain ⟨m, hm, hr₂⟩ := runOps_represents (start n₂ hn₂) hops₂
    obtain rfl : n₂' = m := by
      rw [hrun₂] at hm
      exact Except.ok.inj hm
    refine Represents.unique (f := mapOf ops) ⟨hr₂.sorted, ?_⟩ hr
    intro x
    rw [hr₂.mem_iff, ← hmap]
    rfl

/-- Insertion in front, overwriting, deletion of an absent key and of a
prefix of a live one. -/
def sampleRun : List Op :=
  [.put [98, 0] [1] 3 0, .put [98] [2] 4 1, .put [98, 0] [3] 5 0, .del [99], .del [98]]

theorem sorted_map_of_sampleRun :
    ∃ n', runOps 10 ⟨true, false, [], 0, none, []⟩ sampleRun = .ok n' ∧
      n'.get [98, 0] (some []) = .ok (0, some [3]) ∧
      n'.get [98] (some []) = .ok (-1, some []) := by
  have hvalid : ∀ op ∈ sampleRun, op.Valid 10 := by simp [sampleRun, Op.Valid]
  obtain ⟨n', hrun, -, -, -, hget, -⟩ :=
    sorted_map_of_run (n := ⟨true, false, [], 0, none, []⟩) rfl hvalid
  exact ⟨n', hrun, hget [98, 0] [], hget [98] []⟩

end Node

end BoltCpp
