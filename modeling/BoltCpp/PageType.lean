/-
BoltCpp/PageType.lean

The type of a page that is written again.

`Node::write` sets count and overflow of the page anew, but `setFlags` only
adds to the flags.  A page keeps the flags of all the nodes that were ever
written to it (`Rewritten.flags_or_eq_iff`).  `Page::type` looks for the branch
flag first and everything else for the leaf flag, so after nodes of both kinds
they disagree, and one of them is wrong about the last node
(`retyped_iff`).
-/
import BoltCpp.Cursor
import BoltCpp.BranchPage
import BoltCpp.LeafPage

namespace BoltCpp

open ByteMem

namespace Node

/-- The flag of the pages a node is written to. -/
def pageFlag (n : Node) : UInt16 := if n.isLeaf_ then LeafPageFlag else BranchPageFlag

/-- What `read` derives `isLeaf_` from. -/
def derivesLeaf (m : Mem) (p : Nat) : Bool := decide (Page.flags m p &&& LeafPageFlag ≠ 0)

theorem isLeaf_of_read {n₀ n₁ : Node} {m : Mem} {p : Nat} (h : n₀.read m p = .ok n₁) :
    n₁.isLeaf_ = derivesLeaf m p := by
  rw [read] at h
  rcases hloop : (List.range (Page.count m p).toNat).mapM
    (readInode m p (decide (Page.flags m p &&& LeafPageFlag ≠ 0))) with e | inodes
  · rw [hloop] at h
    cases h
  · rw [hloop] at h
    rcases inodes with - | ⟨first, rest⟩
    · obtain rfl := Except.ok.inj h
      rfl
    · simp only [ok_bind] at h
      split at h
      · obtain rfl := Except.ok.inj h
        rfl
      · cases h

/-- The header after a `write` that returned. -/
theorem header_of_write {n : Node} {m m' : Mem} {p : Nat}
    (hroom : Page.HasRoom m p (image n.isLeaf_ n.inodes).length) (h : n.write m p = .ok m') :
    n.inodes.length ≤ 0xffff ∧ Page.SameHeader (withHeader m p n) m' p p := by
  have hlen : n.inodes.length ≤ 0xffff := by
    by_contra hgt
    rw [write, if_pos (Nat.lt_of_not_le hgt)] at h
    cases h
  have hids : n.isLeaf_ = false → ∀ x ∈ n.inodes, x.id = Page.id m p := by
    intro hleaf x hx
    by_contra hne
    rw [write_circular hleaf hlen hroom ⟨x, hx, hne⟩] at h
    cases h
  rw [write_eq hlen hroom hids] at h
  obtain rfl := Except.ok.inj h
  exact ⟨hlen, Page.sameHeader_write _ _ hroom⟩

theorem flags_of_write {n : Node} {m m' : Mem} {p : Nat}
    (hroom : Page.HasRoom m p (image n.isLeaf_ n.inodes).length) (h : n.write m p = .ok m') :
    Page.flags m' p = Page.flags m p ||| n.pageFlag := by
  rw [(header_of_write hroom h).2.flags, flags_withHeader, pageFlag]

theorem count_of_write {n : Node} {m m' : Mem} {p : Nat}
    (hroom : Page.HasRoom m p (image n.isLeaf_ n.inodes).length) (h : n.write m p = .ok m') :
    (Page.count m' p).toNat = n.inodes.length := by
  obtain ⟨hlen, hsame⟩ := header_of_write hroom h
  rw [hsame.count, count_withHeader, toNat_toUInt32 (by omega)]

end Node

/-! ### The flags of a page -/

/-- The nodes `ns`, the last one first, have been written to the page at `p`,
whose flags were those in `m₀`.  Each write returned, and had the room that
the caller of `write` is to provide; in between anything may have happened to
memory, except to the flags. -/
inductive Rewritten (p : Nat) (m₀ : Mem) : List Node → Mem → Prop
  | made {m : Mem} : Page.flags m p = Page.flags m₀ p → Rewritten p m₀ [] m
  | wrote {ns : List Node} {n : Node} {m m₁ m₂ : Mem} : Rewritten p m₀ ns m →
      Page.HasRoom m p (image n.isLeaf_ n.inodes).length → n.write m p = .ok m₁ →
      Page.flags m₂ p = Page.flags m₁ p → Rewritten p m₀ (n :: ns) m₂

theorem or_or_eq_iff (a b f : UInt16) : (a ||| b) ||| f = f ↔ a ||| f = f ∧ b ||| f = f := by
  constructor
  · intro h
    constructor
    · rw [← h, UInt16.or_assoc, ← UInt16.or_assoc a a, UInt16.or_self]
    · rw [← h, UInt16.or_comm a b, UInt16.or_assoc, ← UInt16.or_assoc b b, UInt16.or_self]
  · rintro ⟨ha, hb⟩
    rw [UInt16.or_assoc, hb, ha]

/-- **Flags add up.**  The page has no flags but `f` if it had none at first and
no node has added one. -/
theorem Rewritten.flags_or_eq_iff {p : Nat} {m₀ m : Mem} {ns : List Node}
    (h : Rewritten p m₀ ns m) (f : UInt16) :
    Page.flags m p ||| f = f ↔ Page.flags m₀ p ||| f = f ∧ ∀ k ∈ ns, k.pageFlag ||| f = f := by
  induction h with
  | made hflags => simp [hflags]
  | @wrote ns n m m₁ m₂ _ hroom hwrite hflags ih =>
      rw [hflags, Node.flags_of_write hroom hwrite, or_or_eq_iff, ih, List.forall_mem_cons,
        and_assoc]
      exact and_congr_right' and_comm

/-! ### What a written page is taken for -/

/-- The page is what the node `n` is: its flags name that kind and no other,
all that look at them agree with it, and it has as many elements. -/
structure Retyped (n : Node) (m : Mem) (p : Nat) : Prop where
  flags : Page.flags m p = n.pageFlag
  type : Page.type m p = if n.isLeaf_ then "leaf" else "branch"
  isLeaf : ∀ (h : Heap) (i : Int), h.mem = m →
    ElemRef.isLeaf h ⟨some p, none, i⟩ = .ok n.isLeaf_
  derives : Node.derivesLeaf m p = n.isLeaf_
  read : ∀ n₀ n₁ : Node, n₀.read m p = .ok n₁ → n₁.isLeaf_ = n.isLeaf_
  count : (Page.count m p).toNat = n.inodes.length

/-- The flags decide. -/
theorem retyped_of_flags {n : Node} {m : Mem} {p : Nat} (hflags : Page.flags m p = n.pageFlag)
    (hcount : (Page.count m p).toNat = n.inodes.length) : Retyped n m p := by
  have hderives : Node.derivesLeaf m p = n.isLeaf_ := by
    rw [Node.derivesLeaf, hflags, Node.pageFlag]
    cases n.isLeaf_ <;> rfl
  refine ⟨hflags, ?_, ?_, hderives, ?_, hcount⟩
  · rw [Page.type, hflags, Node.pageFlag]
    cases n.isLeaf_ <;> rfl
  · rintro h i rfl
    show Except.ok (Node.derivesLeaf h.mem p) = .ok n.isLeaf_
    rw [hderives]
  · intro n₀ n₁ hread
    rw [Node.isLeaf_of_read hread, hderives]

theorem pageFlag_or_eq_iff (k n : Node) :
    k.pageFlag ||| n.pageFlag = n.pageFlag ↔ k.isLeaf_ = n.isLeaf_ := by
  rw [Node.pageFlag, Node.pageFlag]
  cases k.isLeaf_ <;> cases n.isLeaf_ <;> decide

/-- Flags with nothing but a node's own. -/
theorem or_pageFlag_eq_iff (a : UInt16) (n : Node) :
    a ||| n.pageFlag = n.pageFlag ↔ a = 0 ∨ a = n.pageFlag := by
  constructor
  · intro h
    have htwo : n.pageFlag.toNat ≤ 2 := by
      rw [Node.pageFlag]
      cases n.isLeaf_ <;> decide
    have hle : a.toNat ≤ n.pageFlag.toNat := by
      rw [← h, UInt16.toNat_or]
      exact Nat.left_le_or
    have hcases : a = 0 ∨ a = 1 ∨ a = 2 := by
      simp only [← UInt16.toNat_inj]
      show a.toNat = 0 ∨ a.toNat = 1 ∨ a.toNat = 2
      omega
    revert h
    rw [Node.pageFlag]
    rcases hcases with rfl | rfl | rfl <;> cases n.isLeaf_ <;> decide
  · rintro (rfl | rfl)
    · exact UInt16.zero_or
    · exact UInt16.or_self

/-- **When a recycled page is what was last written to it.**  The page had no
flags to begin with, or the one of this kind, and all earlier nodes were of
this kind too. -/
theorem retyped_iff {p : Nat} {m₀ m m' : Mem} {ns : List Node} {n : Node}
    (hr : Rewritten p m₀ ns m)
    (hroom : Page.HasRoom m p (image n.isLeaf_ n.inodes).length) (hwrite : n.write m p = .ok m') :
    Retyped n m' p ↔
      (Page.flags m₀ p = 0 ∨ Page.flags m₀ p = n.pageFlag) ∧ ∀ k ∈ ns, k.isLeaf_ = n.isLeaf_ := by
  have hflags : Retyped n m' p ↔ Page.flags m p ||| n.pageFlag = n.pageFlag := by
    rw [← Node.flags_of_write hroom hwrite]
    exact ⟨fun h => h.flags, fun h => retyped_of_flags h (Node.count_of_write hroom hwrite)⟩
  rw [hflags, hr.flags_or_eq_iff, or_pageFlag_eq_iff]
  simp only [pageFlag_or_eq_iff]

/-- A leaf node, and the same again. -/
theorem retyped_sample :
    ∃ m', sampleLeaf.write sampleLeafMem 4096 = .ok m' ∧ Page.type m' 4096 = "leaf" := by
  have hroom : Page.HasRoom sampleMem 4096 (image true sampleLeaf.inodes).length :=
    Or.inr (by decide)
  have hroom' : Page.HasRoom sampleLeafMem 4096 (image true sampleLeaf.inodes).length :=
    Or.inr (by decide)
  have hfirst : sampleLeaf.write sampleMem 4096 = .ok sampleLeafMem :=
    Node.write_eq (n := sampleLeaf) (by decide) hroom (by decide)
  have hagain := Node.write_eq (n := sampleLeaf) (m := sampleLeafMem) (p := 4096) (by decide)
    hroom' (by decide)
  exact ⟨_, hagain, ((retyped_iff (.wrote (.made rfl) hroom hfirst rfl) hroom' hagain).mpr
    ⟨Or.inl rfl, by decide⟩).type⟩

/-- A branch page that is made a leaf keeps its name, a leaf page that is
made a branch is still read as a leaf. -/
theorem rewritten_page_mixed :
    (∃ m₁ m₂, (Node.sampleBranch []).write sampleMem 4096 = .ok m₁ ∧
      sampleLeaf.write m₁ 4096 = .ok m₂ ∧ Page.flags m₂ 4096 = 3 ∧
      Page.type m₂ 4096 = "branch" ∧ ¬ Retyped sampleLeaf m₂ 4096) ∧
    ∃ m, (Node.sampleBranch []).write sampleLeafMem 4096 = .ok m ∧
      Node.derivesLeaf m 4096 = true ∧ ¬ Retyped (Node.sampleBranch []) m 4096 := by
  constructor
  · have hfirst := Node.write_eq (n := Node.sampleBranch []) (m := sampleMem) (p := 4096)
      (by decide) (Or.inr (by decide)) (by decide)
    have hsecond := Node.write_eq (n := sampleLeaf)
      (m := (withHeader sampleMem 4096 (Node.sampleBranch [])).write 4128 (image false []))
      (p := 4096) (by decide) (Or.inr (by decide)) (by decide)
    refine ⟨_, _, hfirst, hsecond, by decide, by decide, fun h => ?_⟩
    exact absurd h.flags (by decide)
  · have hwrite := Node.write_eq (n := Node.sampleBranch []) (m := sampleLeafMem) (p := 4096)
      (by decide) (Or.inr (by decide)) (by decide)
    refine ⟨_, hwrite, by decide, fun h => ?_⟩
    exact absurd h.flags (by decide)

end BoltCpp
