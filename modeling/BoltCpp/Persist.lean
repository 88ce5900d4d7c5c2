/-
BoltCpp/Persist.lean

A leaf node with its page is a map with a durable copy.

The node is updated by `put` and `del`, saved by `write` and brought back by
`read` of the page saved last, into any `Node` object.  The abstract store is a
pair of maps: updates change the current one, saving copies it to the durable
one, a restart copies it back.  A run of any length keeps

    Represents (the entries of the node) current
    Represents (the entries of the page) durable

(`run_holds`), so what a restart loses are exactly the updates since the last
save, and saving followed by a restart loses nothing.  Saving has its price: at
most 65535 inodes, a size that fits in an `int`, room for the image, and a page
that keeps off the bytes that the node refers to.  After a restart these are on
the page saved last, so the next save has to go to another one.
-/
import BoltCpp.LeafRoundTrip
import BoltCpp.TreeMap

namespace BoltCpp

open ByteMem KeyedList

/-- `get` answers from the map of the entries. -/
theorem Node.get_entries {n : Node} {f : KeyedMap Entry.key}
    (h : Represents (n.inodes.map INode.entry) f) (key s : Slice) :
    n.get key (some s) = .ok (match f.toFun key with
      | some e => (0, some e.value)
      | none => (-1, some s)) := by
  have hsorted : Sorted INode.key n.inodes := sorted_entries_iff.mp h.sorted
  obtain ⟨g, hg⟩ := hsorted.exists_represents
  rw [Node.get_eq hg]
  -- both maps bind the key to the same value, or not at all
  rcases hx : g.toFun key with - | x
  · rcases he : f.toFun key with - | e
    · rfl
    · obtain rfl := f.keyed key e he
      obtain ⟨x, hmem, rfl⟩ := List.mem_map.mp ((h.mem_iff e).mpr he)
      have hbound : g.toFun x.entry.key = some x := (hg.mem_iff x).mp hmem
      rw [hx] at hbound
      cases hbound
  · obtain rfl := g.keyed key x hx
    have hmem : x.entry ∈ n.inodes.map INode.entry :=
      List.mem_map_of_mem ((hg.mem_iff x).mpr hx)
    have hbound : f.toFun x.key = some x.entry := (h.mem_iff x.entry).mp hmem
    rw [hbound]
    rfl

namespace Persist

/-! ### The store -/

/-- The node, the memory, and the page the node was last written to. -/
structure Store where
  node : NodeRef
  mem : Mem
  page : Nat

/-- What `get`, `put` and `del` look at. -/
def Store.held (s : Store) : Node := s.node.deref s.mem

/-- The node that reads the page on a restart is any object. -/
inductive Action where
  | update (op : NodeRef.Op)
  | save (p : Nat)
  | restart (n₀ : NodeRef)

def step (pgid : Pgid) (s : Store) : Action → Except Fault Store
  | .update op => do
      let n ← s.node.runOp pgid s.mem op
      pure { s with node := n }
  | .save p => do
      let m ← s.node.write s.mem p
      pure { s with mem := m, page := p }
  | .restart n₀ => do
      let n ← n₀.read s.mem s.page
      pure { s with node := n }

/-- The node fits on the page at `p`, which keeps off what it refers to. -/
structure FitsPage (n : NodeRef) (m : Mem) (p : Nat) : Prop where
  count : n.inodes.length ≤ 0xffff
  size : (n.deref m).serialisedSize < 2 ^ 31
  flags : Page.ClearOrLeaf m p
  room : Page.HasRoom m p n.imageSize
  apart : n.KeepsOff m p

/-- What an action asks of its caller. -/
def Enabled (pgid : Pgid) (s : Store) : Action → Prop
  | .update op => (op.deref s.mem).Valid pgid
  | .save p => FitsPage s.node s.mem p
  | .restart _ => True

/-! ### What it is for -/

/-- The current map and the durable one. -/
structure Maps where
  current : KeyedMap Entry.key
  durable : KeyedMap Entry.key

/-- What an action does to the maps, where the slices refer to `m`. -/
def Maps.apply (m : Mem) (fs : Maps) : Action → Maps
  | .update op => { fs with current := (op.deref m).bind fs.current }
  | .save _ => { fs with durable := fs.current }
  | .restart _ => { fs with current := fs.durable }

/-- A run of the store beside one of the maps. -/
def run (pgid : Pgid) (s : Store) (fs : Maps) : List Action → Except Fault (Store × Maps)
  | [] => pure (s, fs)
  | a :: as => do
      let s' ← step pgid s a
      run pgid s' (fs.apply s.mem a) as

/-- Every action of the run is enabled when its turn comes. -/
def Admissible (pgid : Pgid) : Store → List Action → Prop
  | _, [] => True
  | s, a :: as => Enabled pgid s a ∧ ∀ s', step pgid s a = .ok s' → Admissible pgid s' as

/-- A page from which a leaf with the given map can be read. -/
structure PageHolds (m : Mem) (p : Nat) (xs : List INode) (f : KeyedMap Entry.key) : Prop where
  page : Page.HoldsLeaf m p xs
  count : xs.length ≤ 0xffff
  size : (image true xs).length < 2 ^ 32
  keys : ∀ x ∈ xs, x.key ≠ []
  represents : Represents (xs.map INode.entry) f

/-- Node and page hold the two maps. -/
structure Holds (s : Store) (fs : Maps) : Prop where
  isLeaf : s.node.isLeaf_ = true
  keys : ∀ x ∈ s.held.inodes, x.key ≠ []
  current : Represents (s.held.inodes.map INode.entry) fs.current
  durable : ∃ xs, PageHolds s.mem s.page xs fs.durable

variable {pgid : Pgid} {s : Store} {fs : Maps}

/-! ### One action -/

/-- Keys in a node after an update: those it had, and the valid one. -/
theorem keys_update {n n' : Node} {op : Node.Op} (hop : op.Valid pgid)
    (hn : ∀ x ∈ n.inodes, x.key ≠ [])
    (hentries : n'.inodes.map INode.entry = op.entries (n.inodes.map INode.entry)) :
    ∀ x ∈ n'.inodes, x.key ≠ [] := by
  intro x hx
  have hmem : x.entry ∈ op.entries (n.inodes.map INode.entry) :=
    hentries ▸ List.mem_map_of_mem hx
  rcases op.localAt.mem hmem with hold | hkey
  · obtain ⟨y, hy, heq⟩ := List.mem_map.mp hold
    have hsame : y.key = x.key := congrArg Entry.key heq
    exact hsame ▸ hn y hy
  · have hkey : x.key = op.key := hkey
    rw [hkey]
    cases op with
    | put k v id flags => exact hop.1
    | del k => exact hop

theorem step_update (h : Holds s fs) {op : NodeRef.Op} (hop : (op.deref s.mem).Valid pgid) :
    ∃ s', step pgid s (.update op) = .ok s' ∧ Holds s' (fs.apply s.mem (.update op)) := by
  have hsorted : Sorted INode.key s.held.inodes := sorted_entries_iff.mp h.current.sorted
  obtain ⟨n', hrun, hleaf, hentries⟩ := Node.runOp_entries hsorted hop
  -- `n'` is what the node refers to after the update
  rw [Store.held, ← NodeRef.runOp_deref] at hrun
  obtain ⟨n, hop', rfl⟩ := ok_of_map hrun
  refine ⟨{ s with node := n }, by rw [step, hop']; rfl, hleaf.trans h.isLeaf,
    keys_update hop h.keys hentries, ?_, h.durable⟩
  show Represents ((n.deref s.mem).inodes.map INode.entry) _
  rw [hentries]
  exact (op.deref s.mem).represents h.current

theorem step_save (h : Holds s fs) {p : Nat} (hfits : FitsPage s.node s.mem p) :
    ∃ s', step pgid s (.save p) = .ok s' ∧ Holds s' (fs.apply s.mem (.save p)) := by
  obtain ⟨m', hwrite, hholds, -, -, hsame⟩ :=
    NodeRef.write_leaf h.isLeaf hfits.count hfits.flags hfits.room hfits.apart
  have hcount : s.held.inodes.length ≤ 0xffff := by
    rw [Store.held, NodeRef.deref, List.length_map]
    exact hfits.count
  have hsize : (image true s.held.inodes).length < 2 ^ 32 := by
    have hleaf : s.held.isLeaf_ = true := h.isLeaf
    have hlt : s.held.serialisedSize < 2 ^ 31 := hfits.size
    rw [Node.serialisedSize, hleaf] at hlt
    omega
  have hheld : (⟨s.node, m', p⟩ : Store).held.inodes = s.held.inodes := hsame
  exact ⟨⟨s.node, m', p⟩, by rw [step, hwrite]; rfl, h.isLeaf, hheld ▸ h.keys, hheld ▸ h.current,
    s.held.inodes, hholds, hcount, hsize, h.keys, h.current⟩

theorem PageHolds.read {m : Mem} {p : Nat} {xs : List INode} {f : KeyedMap Entry.key}
    (hxs : PageHolds m p xs f) (n₀ : NodeRef) :
    ∃ n₁, n₀.read m p = .ok n₁ ∧ n₁.isLeaf_ = true ∧
      (∀ x ∈ (n₁.deref m).inodes, x.key ≠ []) ∧
      Represents ((n₁.deref m).inodes.map INode.entry) f := by
  obtain ⟨n₁, hread, hleaf, -, hinodes, -⟩ :=
    NodeRef.read_leaf n₀ hxs.page hxs.count hxs.size hxs.keys
  refine ⟨n₁, hread, hleaf, fun x hx => ?_, ?_⟩
  · rw [hinodes] at hx
    obtain ⟨y, hy, rfl⟩ := List.mem_map.mp hx
    exact hxs.keys y hy
  · -- the ids, which a leaf page does not store, are no part of the entries
    have hentries : (xs.map fun x => ({ x with id := 0 } : INode)).map INode.entry
        = xs.map INode.entry := by
      rw [List.map_map]
      rfl
    rw [hinodes, hentries]
    exact hxs.represents

theorem step_restart (h : Holds s fs) (n₀ : NodeRef) :
    ∃ s', step pgid s (.restart n₀) = .ok s' ∧ Holds s' (fs.apply s.mem (.restart n₀)) := by
  obtain ⟨xs, hxs⟩ := h.durable
  obtain ⟨n₁, hread, hleaf, hkeys, hf⟩ := hxs.read n₀
  exact ⟨{ s with node := n₁ }, by rw [step, hread]; rfl, hleaf, hkeys, hf, xs, hxs⟩

/-- **One action** keeps store and maps in step. -/
theorem step_holds (h : Holds s fs) {a : Action} (ha : Enabled pgid s a) :
    ∃ s', step pgid s a = .ok s' ∧ Holds s' (fs.apply s.mem a) := by
  cases a with
  | update op => exact step_update h ha
  | save p => exact step_save h ha
  | restart n₀ => exact step_restart h n₀

/-! ### Runs -/

/-- `get` answers from the current map. -/
theorem Holds.get (h : Holds s fs) (key : SliceRef) (old : Slice) :
    s.node.get s.mem key (some old) = .ok (match fs.current.toFun (key.bytes s.mem) with
      | some e => (0, some e.value)
      | none => (-1, some old)) := by
  rw [← NodeRef.get_deref]
  exact Node.get_entries h.current _ _

theorem run_cons {s' : Store} {a : Action} {as : List Action} (hstep : step pgid s a = .ok s') :
    run pgid s fs (a :: as) = run pgid s' (fs.apply s.mem a) as := by
  rw [run, hstep]
  rfl

/-- **A leaf with its page is a map with a durable copy.**  A run of updates,
saves that fit, and restarts never faults; afterwards the inodes of the node
refer to the bindings of the current map in ascending order, `get` answers from
it, and a restart would bring back the durable map. -/
theorem run_holds {as : List Action} :
    ∀ {s : Store} {fs : Maps}, Holds s fs → Admissible pgid s as →
      ∃ s' fs', run pgid s fs as = .ok (s', fs') ∧ Holds s' fs' ∧
        (∀ key old, s'.node.get s'.mem key (some old)
          = .ok (match fs'.current.toFun (key.bytes s'.mem) with
            | some e => (0, some e.value)
            | none => (-1, some old))) ∧
        ∀ n₀ : NodeRef, ∃ n₁, n₀.read s'.mem s'.page = .ok n₁ ∧
          Represents ((n₁.deref s'.mem).inodes.map INode.entry) fs'.durable := by
  induction as with
  | nil =>
      intro s fs h _
      refine ⟨s, fs, rfl, h, h.get, fun n₀ => ?_⟩
      obtain ⟨xs, hxs⟩ := h.durable
      obtain ⟨n₁, hread, -, -, hf⟩ := hxs.read n₀
      exact ⟨n₁, hread, hf⟩
  | cons a as ih =>
      intro s fs h hadm
      obtain ⟨s₁, hstep, h₁⟩ := step_holds h hadm.1
      obtain ⟨s', fs', hrun, hrest⟩ := ih h₁ (hadm.2 s₁ hstep)
      exact ⟨s', fs', (run_cons hstep).trans hrun, hrest⟩

/-- The memory of `sampleNode` with a second page, 8 at 12288. -/
def twoPages : Mem := Page.construct NodeRef.sampleNodeMem 12288 8 0 12320

/-- The memory after the leaf `n` has been written to the page at `p`. -/
def savedMem (m : Mem) (p : Nat) (n : Node) : Mem :=
  (withHeader m p n).write (Page.ptr m p) (image true n.inodes)

/-- `sampleNode` with the page it was written to. -/
def sampleStore : Store := ⟨NodeRef.sampleNode, savedMem twoPages 4096 sampleLeaf, 4096⟩

def sampleMap : KeyedMap Entry.key :=
  ((KeyedMap.empty Entry.key).insert ⟨BucketLeafFlag, [98], []⟩).insert ⟨0, [98, 0], [1, 2]⟩

theorem represents_sampleMap : Represents (sampleLeaf.inodes.map INode.entry) sampleMap := by
  have hempty : Represents ([] : List Entry) (KeyedMap.empty Entry.key) := Represents.empty
  exact (hempty.insert ⟨BucketLeafFlag, [98], []⟩).insert ⟨0, [98, 0], [1, 2]⟩

theorem held_sampleStore : sampleStore.held = sampleLeaf := by decide

theorem holdsLeaf_sampleStore : Page.HoldsLeaf sampleStore.mem 4096 sampleLeaf.inodes := by
  refine ⟨by decide, by decide, ?_⟩
  have hptr : Page.ptr sampleStore.mem 4096 = Page.ptr twoPages 4096 := by decide
  rw [hptr]
  exact holdsImage_write _ _ _ _

theorem holds_sampleStore : Holds sampleStore ⟨sampleMap, sampleMap⟩ where
  isLeaf := rfl
  keys := held_sampleStore ▸ by decide
  current := held_sampleStore ▸ represents_sampleMap
  durable := ⟨sampleLeaf.inodes, holdsLeaf_sampleStore, by decide, by decide, by decide,
    represents_sampleMap⟩

/-- An update that is saved, one that is lost, and a save of what the restart
has brought back, to the other page. -/
def sampleActions : List Action :=
  [.update (.del ⟨8193, 1⟩), .save 4096, .update (.put ⟨8192, 1⟩ ⟨8195, 2⟩ 0 0),
    .restart NodeRef.sampleNode, .save 12288]

/-- The node after the first update. -/
def deletedNode : NodeRef :=
  { NodeRef.sampleNode with
    unbalanced_ := true, inodes := [{ key := ⟨8193, 2⟩, value := ⟨8195, 2⟩ }] }

/-- The memory after the first save. -/
def secondMem : Mem := savedMem sampleStore.mem 4096 (deletedNode.deref sampleStore.mem)

/-- The node after the restart, whose slices refer to the page. -/
def restartedNode : NodeRef where
  isLeaf_ := true
  unbalanced_ := false
  key_ := ⟨4144, 2⟩
  id_ := 7
  parent_ := none
  inodes := [{ key := ⟨4144, 2⟩, value := ⟨4146, 2⟩ }]

/-- The memory after the second save. -/
def thirdMem : Mem := savedMem secondMem 12288 (restartedNode.deref secondMem)

theorem fitsPage_deletedNode : FitsPage deletedNode sampleStore.mem 4096 := by
  refine ⟨by decide, by decide, Or.inr (by decide), Or.inr (by decide), ?_⟩
  have hptr : Page.ptr sampleStore.mem 4096 = 4128 := by decide
  have hsize : deletedNode.imageSize = 20 := rfl
  rintro a ⟨x, hx, ha⟩ hin
  obtain rfl := List.mem_singleton.mp hx
  simp only [INodeRef.Covers, SliceRef.Covers] at ha
  rw [NodeRef.Writes, Page.InHeader, hptr, hsize] at hin
  omega

theorem fitsPage_restartedNode : FitsPage restartedNode secondMem 12288 := by
  refine ⟨by decide, by decide, Or.inl (by decide), Or.inr (by decide), ?_⟩
  have hptr : Page.ptr secondMem 12288 = 12320 := by decide
  rintro a ⟨x, hx, ha⟩ hin
  obtain rfl := List.mem_singleton.mp hx
  simp only [INodeRef.Covers, SliceRef.Covers] at ha
  rw [NodeRef.Writes, Page.InHeader, hptr] at hin
  omega

/-- How the sample run goes, up to the last save. -/
theorem step_deleted : step 1 sampleStore (.update (.del ⟨8193, 1⟩))
    = .ok ⟨deletedNode, sampleStore.mem, 4096⟩ := rfl

theorem step_save_leaf {n : NodeRef} {m : Mem} {p q : Nat} (hfits : FitsPage n m p)
    (hleaf : n.isLeaf_ = true) :
    step 1 ⟨n, m, q⟩ (.save p) = .ok ⟨n, savedMem m p (n.deref m), p⟩ := by
  have hleaf' : (n.deref m).isLeaf_ = true := hleaf
  have hwrite : (n.deref m).write m p = .ok (savedMem m p (n.deref m)) := by
    rw [savedMem, ← hleaf']
    refine Node.write_eq ?_ ?_ fun hno => by rw [hleaf'] at hno; cases hno
    · rw [NodeRef.deref, List.length_map]
      exact hfits.count
    · rw [NodeRef.length_image_deref]
      exact hfits.room
  rw [step, NodeRef.write_deref hfits.room hfits.apart, hwrite]
  rfl

theorem step_saved : step 1 ⟨deletedNode, sampleStore.mem, 4096⟩ (.save 4096)
    = .ok ⟨deletedNode, secondMem, 4096⟩ := step_save_leaf fitsPage_deletedNode rfl

theorem step_lost : step 1 ⟨deletedNode, secondMem, 4096⟩
    (.update (.put ⟨8192, 1⟩ ⟨8195, 2⟩ 0 0)) = .ok ⟨{ deletedNode with
      inodes := { key := ⟨8192, 1⟩, value := ⟨8195, 2⟩ } :: deletedNode.inodes },
      secondMem, 4096⟩ := rfl

theorem step_restarted (n : NodeRef) : step 1 ⟨n, secondMem, 4096⟩ (.restart NodeRef.sampleNode)
    = .ok ⟨restartedNode, secondMem, 4096⟩ := by
  have hread : NodeRef.sampleNode.read secondMem 4096 = .ok restartedNode := by decide
  rw [step, hread]
  rfl

theorem admissible_sampleActions : Admissible 1 sampleStore sampleActions := by
  refine ⟨List.cons_ne_nil _ _, fun s₁ hs₁ => ?_⟩
  obtain rfl := Except.ok.inj (step_deleted.symm.trans hs₁)
  refine ⟨fitsPage_deletedNode, fun s₂ hs₂ => ?_⟩
  obtain rfl := Except.ok.inj (step_saved.symm.trans hs₂)
  refine ⟨⟨List.cons_ne_nil _ _, by decide⟩, fun s₃ hs₃ => ⟨trivial, fun s₄ hs₄ => ?_⟩⟩
  obtain rfl := Except.ok.inj (step_lost.symm.trans hs₃)
  obtain rfl := Except.ok.inj ((step_restarted _).symm.trans hs₄)
  exact ⟨fitsPage_restartedNode, fun _ _ => trivial⟩

theorem run_sampleActions :
    ∃ fs', run 1 sampleStore ⟨sampleMap, sampleMap⟩ sampleActions
        = .ok (⟨restartedNode, thirdMem, 12288⟩, fs') ∧
      restartedNode.get thirdMem ⟨8193, 2⟩ (some []) = .ok (0, some [1, 2]) ∧
      restartedNode.get thirdMem ⟨8193, 1⟩ (some []) = .ok (-1, some []) ∧
      restartedNode.get thirdMem ⟨8192, 1⟩ (some []) = .ok (-1, some []) := by
  obtain ⟨s', fs', hrun, -, hget, -⟩ := run_holds holds_sampleStore admissible_sampleActions
  have hsteps := hrun
  rw [sampleActions, run_cons step_deleted, run_cons step_saved, run_cons step_lost,
    run_cons (step_restarted _),
    run_cons (step_save_leaf fitsPage_restartedNode rfl)] at hsteps
  cases hsteps
  exact ⟨_, hrun, (hget _ _).trans (by decide +kernel), (hget _ _).trans (by decide +kernel),
    (hget _ _).trans (by decide +kernel)⟩

end Persist

end BoltCpp
