/-
BoltCpp/Begin.lean

What `begin` promises.

A call of `begin` that finds its locks free throws without a trace, or returns
a transaction and keeps one lock (`begins`).  Of its two reasons to throw the
second is the wrong way round: `begin` throws `DatabaseNotOpenException` where
`opened_` is set.  So it does what it should only where it has thrown before
it gets there (`begins_iff`).
-/
import BoltCpp.Readers

namespace BoltCpp

open Locks RangeMerge

/-! ### The promise -/

/-- The locks are free that `begin` takes.  A read-only database refuses a
writer before it takes any, and `statlock_` is for the statistics of a reader
that was begun. -/
def LocksFree (s : State) : Bool → Prop
  | true => s.read_only_ = false → s.rwlock_ = ⟨false⟩ ∧ s.metalock_ = ⟨false⟩
  | false => s.metalock_ = ⟨false⟩ ∧ s.mmaplock_.exclusive = false ∧
      (s.opened_ = false → s.statlock_ = .free)

/-- The locks in `s'` are those of `s`, and the one that a transaction keeps. -/
structure KeepsLock (s s' : State) (writable : Bool) : Prop where
  metalock : s'.metalock_ = ⟨false⟩
  rwlock : s'.rwlock_ = if writable then ⟨true⟩ else s.rwlock_
  mmaplock : s'.mmaplock_
    = if writable then s.mmaplock_ else ⟨false, s.mmaplock_.shared + 1⟩
  statlock : s'.statlock_ = s.statlock_

/-- What `call`, of `begin` in the state `s`, is to end in; `isOpen` says whether
the database is open. -/
structure Begins (call : EStateM.Result Stop State TxPtr) (s : State)
    (writable isOpen : Bool) : Prop where
  readOnly : (∃ s', call = .error (.threw .databaseReadOnly) s') ↔
    writable = true ∧ s.read_only_ = true
  notOpen : ¬ (writable = true ∧ s.read_only_ = true) →
    ((∃ s', call = .error (.threw .databaseNotOpen) s') ↔ isOpen = false)
  returns : ¬ (writable = true ∧ s.read_only_ = true) → isOpen = true →
    ∃ t s', call = .ok t s' ∧ s'.Open writable t
  traceless : ∀ e s', call = .error e s' → s' = s
  keeps : ∀ t s', call = .ok t s' → KeepsLock s s' writable

variable {inplace_merge : Merge Pgid} {s : State} {writable isOpen : Bool}

/-! ### The three ways out -/

theorem Begins.of_readOnly (h : writable = true ∧ s.read_only_ = true) :
    Begins (.error (.threw .databaseReadOnly) s) s writable isOpen where
  readOnly := ⟨fun _ => h, fun _ => ⟨s, rfl⟩⟩
  notOpen hnot := absurd h hnot
  returns hnot := absurd h hnot
  traceless _ _ heq := by cases heq; rfl
  keeps _ _ heq := by cases heq

theorem Begins.of_notOpen (h : ¬ (writable = true ∧ s.read_only_ = true)) :
    Begins (.error (.threw .databaseNotOpen) s) s writable false where
  readOnly := ⟨fun ⟨_, heq⟩ => (by cases heq), fun hro => absurd hro h⟩
  notOpen _ := ⟨fun _ => rfl, fun _ => ⟨s, rfl⟩⟩
  returns _ hopen := by cases hopen
  traceless _ _ heq := by cases heq; rfl
  keeps _ _ heq := by cases heq

theorem Begins.of_ok {t : TxPtr} {s' : State} (h : ¬ (writable = true ∧ s.read_only_ = true))
    (hopen : s'.Open writable t) (hkeeps : KeepsLock s s' writable) :
    Begins (.ok t s') s writable true where
  readOnly := ⟨fun ⟨_, heq⟩ => (by cases heq), fun hro => absurd hro h⟩
  notOpen _ := ⟨fun ⟨_, heq⟩ => (by cases heq), fun hopen => (by cases hopen)⟩
  returns _ _ := ⟨t, s', rfl, hopen⟩
  traceless _ _ heq := by cases heq
  keeps _ _ heq := by cases heq; exact hkeeps

/-- The transaction that was created last is open. -/
theorem open_construct {s' : State} (new : NewTx)
    (h : s'.heap = s.heap ++ [Tx.construct s.toDB writable new]) :
    s'.Open writable s.heap.length :=
  (open_append h).mpr (Or.inr ⟨rfl, (isOpen_construct _ _).mpr rfl⟩)

/-- **What `begin` does.**  It keeps the promise for a database that is open
where `opened_` is not set. -/
theorem begins (hfree : LocksFree s writable) (new : NewTx) (stale : TxPtr → Txid) :
    Begins (DB.begin inplace_merge writable new stale s) s writable (!s.opened_) := by
  cases writable with
  | false =>
      obtain ⟨hmeta, hmmap, hstat⟩ := hfree
      have hnot : ¬ (false = true ∧ s.read_only_ = true) := fun h => by cases h.1
      have hcall : DB.begin inplace_merge false new stale s = DB.begin_tx new s := rfl
      rw [hcall, begin_tx_of_free hmeta hmmap hstat]
      cases hopened : s.opened_ with
      | true => exact .of_notOpen hnot
      | false => exact .of_ok hnot (open_construct new rfl) ⟨hmeta, rfl, rfl, rfl⟩
  | true =>
      have hcall : DB.begin inplace_merge true new stale s
          = DB.begin_rwtx inplace_merge new stale s := rfl
      rw [hcall, begin_rwtx_of_free fun hro => (hfree hro).2]
      cases hro : s.read_only_ with
      | true => exact .of_readOnly ⟨rfl, hro⟩
      | false =>
          obtain ⟨hrw, hmeta⟩ := hfree hro
          have hnot : ¬ (true = true ∧ s.read_only_ = true) := fun h => by
            rw [hro] at h
            cases h.2
          rw [hrw]
          cases hopened : s.opened_ with
          | true => exact .of_notOpen hnot
          | false => exact .of_ok hnot (open_construct new rfl) ⟨hmeta, rfl, rfl, rfl⟩

/-! ### `opened_` -/

/-- **When `begin` keeps its promise.**  The database is read-only and it is
a writer that is to begin: all other calls get to the test of `opened_`. -/
theorem begins_iff (hfree : LocksFree s writable) (new : NewTx) (stale : TxPtr → Txid) :
    Begins (DB.begin inplace_merge writable new stale s) s writable s.opened_ ↔
      writable = true ∧ s.read_only_ = true := by
  have hdoes : Begins (DB.begin inplace_merge writable new stale s) s writable (!s.opened_) :=
    begins hfree new stale
  constructor
  · intro h
    by_contra hnot
    -- it throws where `opened_` is set, and where it is not
    have hiff := (hdoes.notOpen hnot).symm.trans (h.notOpen hnot)
    cases hopened : s.opened_ <;> simp [hopened] at hiff
  · intro hrefused
    exact {
      readOnly := hdoes.readOnly
      notOpen := fun hnot => absurd hrefused hnot
      returns := fun hnot => absurd hrefused hnot
      traceless := hdoes.traceless
      keeps := hdoes.keeps }

/-- A read-only database. -/
def readOnlyState : State := { idleState .sample with read_only_ := true }

/-- A database that is open. -/
def openedState : State := { idleState .sample with opened_ := true }

theorem begins_sample :
    Begins (DB.begin merge true (sampleNewTx 3) (fun _ => 0) readOnlyState) readOnlyState true
      readOnlyState.opened_ :=
  have hfree : LocksFree readOnlyState true := fun hro => by cases hro
  (begins_iff hfree (sampleNewTx 3) fun _ => 0).mpr ⟨rfl, rfl⟩

/-- A database that is not open lets a reader begin, and one that is open does
not. -/
theorem begin_opened_inverted :
    ((∃ t s', DB.begin merge false (sampleNewTx 2) (fun _ => 0) (idleState .sample) = .ok t s') ∧
      ¬ Begins (DB.begin merge false (sampleNewTx 2) (fun _ => 0) (idleState .sample))
        (idleState .sample) false (idleState .sample).opened_) ∧
    DB.begin merge false (sampleNewTx 2) (fun _ => 0) openedState
        = .error (.threw .databaseNotOpen) openedState ∧
      ¬ Begins (DB.begin merge false (sampleNewTx 2) (fun _ => 0) openedState) openedState false
        openedState.opened_ := by
  have hwriter : ∀ s : State, ¬ (false = true ∧ s.read_only_ = true) := fun s h => by cases h.1
  refine ⟨⟨⟨_, _, rfl⟩, fun h => ?_⟩, rfl, fun h => ?_⟩
  · obtain ⟨s', heq⟩ := (h.notOpen (hwriter _)).mpr rfl
    cases heq
  · obtain ⟨t, s', heq, -⟩ := h.returns (hwriter _) rfl
    cases heq

end BoltCpp
