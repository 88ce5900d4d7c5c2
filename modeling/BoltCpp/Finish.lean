/-
BoltCpp/Finish.lean

Finishing a transaction.

`rollback` closes a transaction for good.  `commit` ends before it does
anything: on an open writer it returns, and the writer stays open, with the
writer lock (`finishes_iff`).  `update` calls neither (`update_never`).
-/
import BoltCpp.Readers

namespace BoltCpp

open Locks RangeMerge

variable {inplace_merge : Merge Pgid} {s : State} {t : TxPtr} {tx : Transaction}

/-! ### `commit` and `rollback` -/

/-- The calls that finish a transaction. -/
inductive Finish where
  | commit
  | rollback (snapshot : Meta)

def finish (t : TxPtr) : Finish → Action Unit
  | .commit => Tx.commit t
  | .rollback snapshot => Tx.rollback snapshot t

/-- A call that took the database from `s` to `s'` has closed `t`; if it is a
writer, it has released the writer lock. -/
structure Closes (t : TxPtr) (writable : Bool) (s s' : State) : Prop where
  db : ∃ tx, s'.heap[t]? = some tx ∧ tx.db_ = none
  rwtx : writable = true → s'.rwtx_ = none
  rwlock : writable = true → s.rwlock_ = ⟨true⟩ ∧ s'.rwlock_ = ⟨false⟩

/-- What finishing calls on an open transaction are to do.  The first one
that returns closes it, and all later ones throw and change nothing; before
that, only `commit` of a reader may throw, and it changes nothing. -/
def FinishesForGood (t : TxPtr) (writable : Bool) (s : State) : List Finish → Prop
  | [] => True
  | c :: calls =>
      match finish t c s with
      | .ok _ s' =>
          Closes t writable s s' ∧
            ∀ c' ∈ calls, finish t c' s' = .error (.threw .txClosed) s'
      | .error e s' =>
          (∀ snapshot, c ≠ .rollback snapshot) ∧ writable = false ∧
            e = .threw .txNotWritable ∧ s' = s ∧ FinishesForGood t writable s calls

/-- A closed transaction stays closed. -/
theorem finish_closed (ht : s.heap[t]? = some tx) (hm : tx.managed_ = false)
    (hdb : tx.db_ = none) (c : Finish) : finish t c s = .error (.threw .txClosed) s := by
  cases c with
  | commit =>
      show Tx.commit t s = _
      rw [commit_eq ht hm, hdb]
      rfl
  | rollback snapshot => exact rollback_closed ht hm hdb snapshot

theorem getElem?_closed (ht : s.heap[t]? = some tx) (s' : State)
    (h : s'.heap = s.heap.set t tx.closed) : s'.heap[t]? = some tx.closed := by
  rw [h, List.getElem?_set_self (List.getElem?_eq_some_iff.mp ht).1]

/-- Once `rollback` has returned, the rest is settled. -/
theorem finishes_rollback (hi : Inv s) (ht : s.heap[t]? = some tx) (hm : tx.managed_ = false)
    {writable : Bool} (ho : tx.IsOpen writable) (snapshot : Meta) (calls : List Finish) :
    FinishesForGood t writable s (.rollback snapshot :: calls) := by
  cases writable with
  | false =>
      have hget := getElem?_closed ht (s.withoutReader t tx) rfl
      rw [FinishesForGood, finish, rollback_reader ht hm ho]
      exact ⟨⟨⟨_, hget, rfl⟩, fun h => (by cases h), fun h => (by cases h)⟩,
        fun c _ => finish_closed hget hm rfl c⟩
  | true =>
      have hget := getElem?_closed ht (s.withoutWriter t tx) rfl
      have hrw := (hi.writer t ⟨tx, ht, ho⟩).1
      rw [FinishesForGood, finish,
        rollback_writer ht hm ho (hi.snapshot t tx ht ho.db) hrw hi.statlock]
      exact ⟨⟨⟨_, hget, rfl⟩, fun _ => rfl, fun _ => ⟨hrw, rfl⟩⟩,
        fun c _ => finish_closed hget hm rfl c⟩

/-- A reader is not committed, and then the next call counts. -/
theorem finishes_reader (hi : Inv s) (ht : s.heap[t]? = some tx) (hm : tx.managed_ = false)
    (ho : tx.IsOpen false) (calls : List Finish) : FinishesForGood t false s calls := by
  induction calls with
  | nil => trivial
  | cons c calls ih =>
      cases c with
      | rollback snapshot => exact finishes_rollback hi ht hm ho snapshot calls
      | commit =>
          have hcommit : Tx.commit t s = .error (.threw .txNotWritable) s := by
            rw [commit_eq ht hm, ho.kind, Option.isNone_eq_false_iff.mpr ho.db]
            rfl
          rw [FinishesForGood, finish, hcommit]
          exact ⟨fun _ h => (by cases h), rfl, rfl, rfl, ih⟩

/-- A writer is open after `commit`. -/
theorem not_finishes_commit (ht : s.heap[t]? = some tx) (hm : tx.managed_ = false)
    (ho : tx.IsOpen true) (calls : List Finish) :
    ¬ FinishesForGood t true s (.commit :: calls) := by
  have hcommit : Tx.commit t s = .ok () s := by
    rw [commit_eq ht hm, ho.kind, Option.isNone_eq_false_iff.mpr ho.db]
    rfl
  rw [FinishesForGood, finish, hcommit]
  rintro ⟨⟨⟨tx', ht', hdb⟩, -, -⟩, -⟩
  rw [ht] at ht'
  obtain rfl := Option.some.inj ht'
  have := ho.db
  rw [hdb] at this
  cases this

/-- **When a transaction is finished for good.**  Any sequence of `commit` and
`rollback` on a reader finishes it as it should; on a writer, one that does
not start with `commit`. -/
theorem finishes_iff (hr : Reachable inplace_merge s) (ht : s.heap[t]? = some tx)
    (hm : tx.managed_ = false) {writable : Bool} (ho : tx.IsOpen writable)
    (calls : List Finish) :
    FinishesForGood t writable s calls ↔
      writable = false ∨ calls.head? ≠ some .commit := by
  cases writable with
  | false => exact ⟨fun _ => Or.inl rfl, fun _ => finishes_reader hr.inv ht hm ho calls⟩
  | true =>
      rcases calls with - | ⟨c, calls⟩
      · simp [FinishesForGood]
      cases c with
      | commit => simp [not_finishes_commit ht hm ho calls]
      | rollback snapshot =>
          have := finishes_rollback hr.inv ht hm ho snapshot calls
          simp [this]

/-- The state after a `begin(true)`. -/
def writerState : State :=
  run merge (idleState .sample) [.begin true (sampleNewTx 3) fun _ => 0]

theorem finishes_sample :
    FinishesForGood 0 true writerState [.rollback (sampleNewTx 3).snapshot, .commit] := by
  have hr : Reachable merge writerState := ⟨_, _, fresh_idleState .sample, rfl⟩
  have ho : (Tx.construct (idleState .sample).toDB true (sampleNewTx 3)).IsOpen true := ⟨rfl, rfl⟩
  exact (finishes_iff hr rfl rfl ho _).mpr (Or.inr (by simp))

/-- A writer that is committed can be committed again, and holds the lock. -/
theorem commit_leaves_open :
    finish 0 .commit writerState = .ok () writerState ∧ writerState.rwlock_ = ⟨true⟩ ∧
      ¬ FinishesForGood 0 true writerState [.commit, .commit] :=
  ⟨rfl, rfl, not_finishes_commit rfl rfl ⟨rfl, rfl⟩ _⟩

/-! ### `update` -/

/-- A call of `update`: what the transaction it begins finds, and the function
it is given. -/
structure Update where
  new : NewTx
  stale : TxPtr → Txid
  fn : TxPtr → Action Unit

/-- The function returns or throws, and leaves it to others to finish the
transaction. -/
def Update.Behaves (u : Update) : Prop :=
  ∀ t s, s.Open true t → s.rwtx_ = some t → s.rwlock_ = ⟨true⟩ →
    ∃ s', (u.fn t s = .ok () s' ∨ ∃ e, u.fn t s = .error (.threw e) s') ∧
      s'.Open true t ∧ s'.rwtx_ = some t ∧ s'.rwlock_ = ⟨true⟩

/-- No writer is left, and `t` is closed. -/
structure WriterGone (t : TxPtr) (s : State) : Prop where
  db : ∃ tx, s.heap[t]? = some tx ∧ tx.db_ = none
  rwtx : s.rwtx_ = none
  rwlock : s.rwlock_ = ⟨false⟩

/-- What calls of `update` are to do: whether the function returns or throws,
the transaction that was begun for it is finished. -/
def UpdatesFinish (inplace_merge : Merge Pgid) (s : State) : List Update → Prop
  | [] => True
  | u :: us =>
      match DB.update inplace_merge u.new u.stale u.fn s with
      | .ok _ s' => WriterGone s.heap.length s' ∧ UpdatesFinish inplace_merge s' us
      | .error (.threw _) s' => WriterGone s.heap.length s' ∧ UpdatesFinish inplace_merge s' us
      | .error _ _ => False

/-- What `update` leaves: the writer it began, with the lock. -/
theorem update_leaves (inplace_merge : Merge Pgid) (hq : Quiet s)
    (hread : s.read_only_ = false) (hopen : s.opened_ = false) (hrw : s.rwlock_ = ⟨false⟩)
    {u : Update} (hu : u.Behaves) :
    ∃ s', (DB.update inplace_merge u.new u.stale u.fn s = .ok () s' ∨
        ∃ e, DB.update inplace_merge u.new u.stale u.fn s = .error (.threw e) s') ∧
      s'.Open true s.heap.length ∧ s'.rwtx_ = some s.heap.length ∧ s'.rwlock_ = ⟨true⟩ := by
  have hbegin : DB.begin inplace_merge true u.new u.stale s
      = .ok s.heap.length (s.withWriter inplace_merge u.new u.stale) := by
    show DB.begin_rwtx inplace_merge u.new u.stale s = _
    rw [begin_rwtx_eq hq, hread, hopen, hrw]
    rfl
  have hwriter : (s.withWriter inplace_merge u.new u.stale).Open true s.heap.length :=
    (open_append rfl).mpr (Or.inr ⟨rfl, rfl, rfl⟩)
  obtain ⟨s', hfn, hs'⟩ := hu _ _ hwriter rfl rfl
  refine ⟨s', ?_, hs'⟩
  rw [DB.update, bind_ok hbegin]
  exact hfn

/-- **`update` never finishes the transaction it begins.** -/
theorem update_never (hr : Reachable inplace_merge s) (hread : s.read_only_ = false)
    (hopen : s.opened_ = false) (hrw : s.rwlock_ = ⟨false⟩) (us : List Update)
    (hus : ∀ u ∈ us, u.Behaves) : UpdatesFinish inplace_merge s us ↔ us = [] := by
  rcases us with - | ⟨u, us⟩
  · exact ⟨fun _ => rfl, fun _ => trivial⟩
  refine ⟨fun h => ?_, fun h => (by cases h)⟩
  obtain ⟨s', hupdate, -, hrwtx, -⟩ :=
    update_leaves inplace_merge hr.inv.toQuiet hread hopen hrw
      (hus u List.mem_cons_self)
  exfalso
  rw [UpdatesFinish] at h
  rcases hupdate with hupdate | ⟨e, hupdate⟩
  · rw [hupdate] at h
    exact absurd (hrwtx.symm.trans h.1.rwtx) (by simp)
  · rw [hupdate] at h
    exact absurd (hrwtx.symm.trans h.1.rwtx) (by simp)

/-- A function that does nothing. -/
def sampleUpdate : Update where
  new := sampleNewTx 3
  stale _ := 0
  fn _ := pure ()

theorem sampleUpdate_behaves : sampleUpdate.Behaves :=
  fun _ s ho hrwtx hrw => ⟨s, Or.inl rfl, ho, hrwtx, hrw⟩

theorem update_never_sample :
    UpdatesFinish merge (idleState .sample) [sampleUpdate] ↔ [sampleUpdate] = [] :=
  update_never ⟨_, [], fresh_idleState .sample, rfl⟩ rfl rfl rfl [sampleUpdate] fun _ hu => by
    rw [List.mem_singleton.mp hu]
    exact sampleUpdate_behaves

/-- The second of two updates waits for ever. -/
theorem update_twice :
    ∃ s, DB.update merge (sampleNewTx 3) (fun _ => 0) (fun _ => pure ()) (idleState .sample)
        = .ok () s ∧ s.rwtx_ = some 0 ∧
      DB.update merge (sampleNewTx 4) (fun _ => 0) (fun _ => pure ()) s = .error .blocked s ∧
      ¬ UpdatesFinish merge (idleState .sample) [sampleUpdate] := by
  refine ⟨_, rfl, rfl, rfl, ?_⟩
  rintro ⟨h, -⟩
  cases h.rwtx

end BoltCpp
