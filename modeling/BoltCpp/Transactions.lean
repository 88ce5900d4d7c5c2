/-
BoltCpp/Transactions.lean

What the calls on a database do.

Between calls nobody is inside the database (`Quiet`), and then every call is
one equation: `begin_tx_eq`, `begin_rwtx_eq`, `commit_eq`, `rollback_reader`,
`rollback_writer` and `rollback_closed`.  Runs of calls, in any order and on
any of the transactions, keep `Inv`: open readers are listed, and the writer,
of which there is one at most, holds the writer lock.
-/
import BoltCpp.Database
import BoltCpp.Lib.Runs

namespace BoltCpp

open Locks RangeMerge

/-! ### Between calls -/

/-- Nobody is inside the database: the locks that no transaction keeps are
free, and `txs_` lists transactions. -/
structure Quiet (s : State) : Prop where
  metalock : s.metalock_ = ⟨false⟩
  mmaplock : s.mmaplock_.exclusive = false
  statlock : s.statlock_ = .free
  txs : ∀ t ∈ s.txs_, t < s.heap.length

/-- `tx` is a transaction that is still open. -/
structure Transaction.IsOpen (tx : Transaction) (writable : Bool) : Prop where
  db : tx.db_.isSome = true
  kind : tx.writable_ = writable

/-- `t` points to a transaction that is still open. -/
def State.Open (s : State) (writable : Bool) (t : TxPtr) : Prop :=
  ∃ tx, s.heap[t]? = some tx ∧ tx.IsOpen writable

/-- The state after a reader was begun. -/
def State.withReader (s : State) (new : NewTx) : State :=
  { s with
    mmaplock_ := ⟨false, s.mmaplock_.shared + 1⟩
    txs_ := s.txs_ ++ [s.heap.length]
    stats_ :=
      { s.stats_ with
        tx_n := s.stats_.tx_n + 1
        open_tx_n := (s.txs_ ++ [s.heap.length]).length }
    heap := s.heap ++ [Tx.construct s.toDB false new] }

/-- The state after a writer was begun. -/
def State.withWriter (s : State) (inplace_merge : Merge Pgid) (new : NewTx)
    (stale : TxPtr → Txid) : State :=
  { s with
    rwlock_ := ⟨true⟩
    rwtx_ := some s.heap.length
    freelist_ := s.freed inplace_merge stale
    heap := s.heap ++ [Tx.construct s.toDB true new] }

/-- The state after a reader was closed. -/
def State.withoutReader (s : State) (t : TxPtr) (tx : Transaction) : State :=
  { s with heap := s.heap.set t tx.closed }

/-- The state after a writer was closed. -/
def State.withoutWriter (s : State) (t : TxPtr) (tx : Transaction) : State :=
  { s with
    rwtx_ := none
    rwlock_ := ⟨false⟩
    stats_ :=
      { s.stats_ with
        free_page_n := 0
        pending_page_n := 0
        free_alloc := 0
        freelist_inuse := 0
        tx_stats := s.stats_.tx_stats.add tx.stats_ }
    heap := s.heap.set t tx.closed }

variable {inplace_merge : Merge Pgid} {s : State}

/-- `begin(false)` with the locks free that it takes. -/
theorem begin_tx_of_free (hmeta : s.metalock_ = ⟨false⟩) (hmmap : s.mmaplock_.exclusive = false)
    (hstat : s.opened_ = false → s.statlock_ = .free) (new : NewTx) :
    DB.begin_tx new s
      = if s.opened_ then .error (.threw .databaseNotOpen) s
        else .ok s.heap.length (s.withReader new) := by
  obtain ⟨⟨⟨data, pageSize⟩, opened, readOnly, pageSize', dataSz, rwtx, txs, freelist, stats,
    pool, rwlock, metalock, ⟨exclusive, shared⟩, statlock⟩, heap⟩ := s
  obtain rfl : metalock = ⟨false⟩ := hmeta
  obtain rfl : exclusive = false := hmmap
  cases opened
  · obtain rfl : statlock = .free := hstat rfl
    rfl
  · rfl

/-- **`begin(false)`** -/
theorem begin_tx_eq (hq : Quiet s) (new : NewTx) :
    DB.begin_tx new s
      = if s.opened_ then .error (.threw .databaseNotOpen) s
        else .ok s.heap.length (s.withReader new) :=
  begin_tx_of_free hq.metalock hq.mmaplock (fun _ => hq.statlock) new

/-- The state in which `begin(true)` goes about the freelist. -/
def State.enlisted (s : State) (new : NewTx) : State :=
  { s with
    rwlock_ := ⟨true⟩
    rwtx_ := some s.heap.length
    heap := s.heap ++ [Tx.construct s.toDB true new] }

/-- `begin(true)` with `metalock_` free, if it takes it. -/
theorem begin_rwtx_of_free (hmeta : s.read_only_ = false → s.metalock_ = ⟨false⟩) (new : NewTx)
    (stale : TxPtr → Txid) :
    DB.begin_rwtx inplace_merge new stale s
      = if s.read_only_ then .error (.threw .databaseReadOnly) s
        else if s.rwlock_.held then .error .blocked s
        else if s.opened_ then .error (.threw .databaseNotOpen) s
        else .ok s.heap.length { s.enlisted new with
          freelist_ := (s.enlisted new).freed inplace_merge stale } := by
  obtain ⟨⟨⟨data, pageSize⟩, opened, readOnly, pageSize', dataSz, rwtx, txs, freelist, stats,
    pool, ⟨held⟩, metalock, mmaplock, statlock⟩, heap⟩ := s
  cases readOnly
  · obtain rfl : metalock = ⟨false⟩ := hmeta rfl
    cases held
    · cases opened <;> rfl
    · rfl
  · rfl

/-- A transaction that is being begun is not among those `minid` is about. -/
theorem freed_enlisted (hq : Quiet s) (new : NewTx) (stale : TxPtr → Txid) :
    (s.enlisted new).freed inplace_merge stale = s.freed inplace_merge stale := by
  have hmin : (s.enlisted new).minid stale = s.minid stale := by
    refine List.foldl_ext _ _ _ fun minid x hx => ?_
    have hget : (s.enlisted new).heap[x]? = s.heap[x]? :=
      List.getElem?_append_left (hq.txs x hx)
    have htxid : (s.enlisted new).txid stale x = s.txid stale x := by
      rw [State.txid, State.txid, hget]
    rw [htxid]
  rw [State.freed, State.freed, hmin]
  rfl

/-- **`begin(true)`** -/
theorem begin_rwtx_eq (hq : Quiet s) (new : NewTx) (stale : TxPtr → Txid) :
    DB.begin_rwtx inplace_merge new stale s
      = if s.read_only_ then .error (.threw .databaseReadOnly) s
        else if s.rwlock_.held then .error .blocked s
        else if s.opened_ then .error (.threw .databaseNotOpen) s
        else .ok s.heap.length (s.withWriter inplace_merge new stale) := by
  rw [begin_rwtx_of_free (fun _ => hq.metalock), freed_enlisted hq]
  rfl

/-! ### `commit` and `rollback` -/

section

variable {t : TxPtr} {tx : Transaction} (ht : s.heap[t]? = some tx) (hm : tx.managed_ = false)

include ht in
theorem deref_eq : Tx.deref t s = .ok tx s := by
  rw [Tx.deref, ht]

include ht hm in
/-- **`commit`** -/
theorem commit_eq :
    Tx.commit t s
      = if tx.db_.isNone then .error (.threw .txClosed) s
        else if tx.writable_ then .ok () s
        else .error (.threw .txNotWritable) s := by
  rw [Tx.commit, bind_ok (deref_eq ht), hm]
  obtain ⟨⟨db, pages⟩, writable, managed, snapshot, stats⟩ := tx
  cases db <;> cases writable <;> rfl

include ht hm in
theorem rollback_closed (hdb : tx.db_ = none) (snapshot : Meta) :
    Tx.rollback snapshot t s = .error (.threw .txClosed) s := by
  rw [Tx.rollback, bind_ok (deref_eq ht), hm, hdb]
  rfl

include ht in
theorem close_reader (ho : tx.IsOpen false) : Tx.close t s = .ok () (s.withoutReader t tx) := by
  obtain ⟨⟨db, pages⟩, writable, managed, snapshot, stats⟩ := tx
  obtain ⟨hdb, rfl⟩ := ho
  obtain ⟨db, rfl⟩ := Option.isSome_iff_exists.mp hdb
  rw [Tx.close, bind_ok (deref_eq ht)]
  rfl

include ht in
theorem close_writer (ho : tx.IsOpen true) (hrw : s.rwlock_ = ⟨true⟩)
    (hstat : s.statlock_ = .free) : Tx.close t s = .ok () (s.withoutWriter t tx) := by
  obtain ⟨⟨db, pages⟩, writable, managed, snapshot, stats⟩ := tx
  obtain ⟨hdb, rfl⟩ := ho
  obtain ⟨db, rfl⟩ := Option.isSome_iff_exists.mp hdb
  rw [Tx.close, bind_ok (deref_eq ht)]
  obtain ⟨⟨⟨data, pageSize⟩, opened, readOnly, pageSize', dataSz, rwtx, txs, freelist, stats',
    pool, rwlock, metalock, mmaplock, statlock⟩, heap⟩ := s
  obtain rfl : rwlock = ⟨true⟩ := hrw
  obtain rfl : statlock = .free := hstat
  show EStateM.Result.ok () _ = EStateM.Result.ok () _
  rw [State.withoutWriter]
  simp [FreeList.free_count, FreeList.pending_count, FreeList.size, SharedMutex.free]

include ht hm in
theorem rollback_open (hdb : tx.db_.isSome = true) (snapshot : Meta) :
    Tx.rollback snapshot t s = Tx.rollback_ snapshot t s := by
  obtain ⟨db, hdb⟩ := Option.isSome_iff_exists.mp hdb
  rw [Tx.rollback, bind_ok (deref_eq ht), hm, hdb]
  rfl

include ht hm in
/-- **`rollback` of a reader** -/
theorem rollback_reader (ho : tx.IsOpen false) (snapshot : Meta) :
    Tx.rollback snapshot t s = .ok () (s.withoutReader t tx) := by
  obtain ⟨db, hdb⟩ := Option.isSome_iff_exists.mp ho.db
  rw [rollback_open ht hm ho.db, Tx.rollback_, bind_ok (deref_eq ht), hdb, ho.kind]
  exact close_reader ht ho

include ht hm in
/-- **`rollback` of a writer** -/
theorem rollback_writer (ho : tx.IsOpen true) (hmeta : tx.meta_.isSome = true)
    (hrw : s.rwlock_ = ⟨true⟩) (hstat : s.statlock_ = .free) (snapshot : Meta) :
    Tx.rollback snapshot t s = .ok () (s.withoutWriter t tx) := by
  obtain ⟨db, hdb⟩ := Option.isSome_iff_exists.mp ho.db
  obtain ⟨m, hm'⟩ := Option.isSome_iff_exists.mp hmeta
  rw [rollback_open ht hm ho.db, Tx.rollback_, bind_ok (deref_eq ht), hdb, ho.kind, hm']
  exact close_writer ht ho hrw hstat

end

/-! ### Runs -/

/-- What can happen to a database: a call, or pages are freed and the pending
map changes.  `snapshot` and `stale` are what `DB::meta()` returns and what is
read in a deleted meta. -/
inductive Event where
  | begin (writable : Bool) (new : NewTx) (stale : TxPtr → Txid)
  | rollback (snapshot : Meta) (t : TxPtr)
  | free (pending : Pending)

def step (inplace_merge : Merge Pgid) (s : State) : Event → State
  | .begin writable new stale => stateAfter (DB.begin inplace_merge writable new stale s)
  | .rollback snapshot t => stateAfter (Tx.rollback snapshot t s)
  | .free pending => { s with freelist_ := { s.freelist_ with pending := pending } }

def run (inplace_merge : Merge Pgid) (s : State) (events : List Event) : State :=
  events.foldl (step inplace_merge) s

/-- What the constructor of `DB` leaves: no transactions, no locks taken. -/
structure Fresh (s : State) : Prop where
  heap : s.heap = []
  txs : s.txs_ = []
  rwlock : s.rwlock_ = ⟨false⟩
  metalock : s.metalock_ = ⟨false⟩
  mmaplock : s.mmaplock_ = .free
  statlock : s.statlock_ = .free

/-- The invariant between calls. -/
structure Inv (s : State) : Prop extends Quiet s where
  snapshot : ∀ (t : TxPtr) (tx : Transaction), s.heap[t]? = some tx → tx.db_.isSome = true →
    tx.meta_.isSome = true
  reader : ∀ t, s.Open false t → t ∈ s.txs_
  writer : ∀ t, s.Open true t → s.rwlock_ = ⟨true⟩ ∧ s.rwtx_ = some t

theorem Fresh.inv (h : Fresh s) : Inv s where
  metalock := h.metalock
  mmaplock := by rw [h.mmaplock]; rfl
  statlock := h.statlock
  txs t ht := by rw [h.txs] at ht; cases ht
  snapshot t tx ht := by rw [h.heap] at ht; cases ht
  reader := by rintro t ⟨tx, ht, -⟩; rw [h.heap] at ht; cases ht
  writer := by rintro t ⟨tx, ht, -⟩; rw [h.heap] at ht; cases ht

/-- Everything an event can do to a database between calls. -/
inductive Did (inplace_merge : Merge Pgid) (s : State) : Event → State → Prop
  | nothing {e : Event} : Did inplace_merge s e s
  | reader {new stale} :
      Did inplace_merge s (.begin false new stale) (s.withReader new)
  | writer {new stale} (hrw : s.rwlock_ = ⟨false⟩) :
      Did inplace_merge s (.begin true new stale) (s.withWriter inplace_merge new stale)
  | closedReader {snapshot t tx} (ht : s.heap[t]? = some tx) (hm : tx.managed_ = false)
      (ho : tx.IsOpen false) :
      Did inplace_merge s (.rollback snapshot t) (s.withoutReader t tx)
  | closedWriter {snapshot t tx} (ht : s.heap[t]? = some tx) (hm : tx.managed_ = false)
      (ho : tx.IsOpen true) :
      Did inplace_merge s (.rollback snapshot t) (s.withoutWriter t tx)
  | freed {pending} :
      Did inplace_merge s (.free pending)
        { s with freelist_ := { s.freelist_ with pending := pending } }

theorem step_did (inplace_merge : Merge Pgid) (hi : Inv s) (e : Event) :
    Did inplace_merge s e (step inplace_merge s e) := by
  cases e with
  | begin writable new stale =>
      cases writable with
      | false =>
          show Did _ _ _ (stateAfter (DB.begin_tx new s))
          rw [begin_tx_eq hi.toQuiet]
          split
          · exact .nothing
          · exact .reader
      | true =>
          show Did _ _ _ (stateAfter (DB.begin_rwtx inplace_merge new stale s))
          rw [begin_rwtx_eq hi.toQuiet]
          split
          · exact .nothing
          split
          · exact .nothing
          split
          · exact .nothing
          · rename_i hheld _
            refine .writer ?_
            rw [Bool.not_eq_true] at hheld
            rw [← hheld]
  | rollback snapshot t =>
      show Did _ _ _ (stateAfter (Tx.rollback snapshot t s))
      rcases ht : s.heap[t]? with - | tx
      · have hderef : Tx.deref t s = .error (.fault .nullDeref) s := by rw [Tx.deref, ht]
        rw [Tx.rollback, bind_error hderef]
        exact .nothing
      rcases hm : tx.managed_ with - | -
      · rcases hdb : tx.db_ with - | db
        · rw [rollback_closed ht hm hdb]
          exact .nothing
        have hopen : tx.db_.isSome = true := by rw [hdb]; rfl
        -- an open transaction is closed, a writer with the lock it holds
        rcases hw : tx.writable_ with - | -
        · rw [rollback_reader ht hm ⟨hopen, hw⟩]
          exact .closedReader ht hm ⟨hopen, hw⟩
        · rw [rollback_writer ht hm ⟨hopen, hw⟩ (hi.snapshot t tx ht hopen)
            (hi.writer t ⟨tx, ht, hopen, hw⟩).1 hi.statlock]
          exact .closedWriter ht hm ⟨hopen, hw⟩
      · rw [Tx.rollback, bind_ok (deref_eq ht), hm]
        exact .nothing
  | free pending => exact .freed

/-! #### Which transactions are open -/

section

variable {t t' : TxPtr} {tx : Transaction} {w w' : Bool}

theorem isOpen_construct (db : DB) (new : NewTx) :
    (Tx.construct db w new).IsOpen w' ↔ w = w' :=
  ⟨fun h => h.kind, fun h => ⟨rfl, h⟩⟩

theorem not_isOpen_closed : ¬ tx.closed.IsOpen w := fun h => by cases h.db

/-- A new transaction is open, and the others are what they were. -/
theorem open_append {s' : State} (h : s'.heap = s.heap ++ [tx]) :
    s'.Open w t ↔ s.Open w t ∨ t = s.heap.length ∧ tx.IsOpen w := by
  rcases Nat.lt_trichotomy t s.heap.length with hlt | rfl | hgt
  · have hget : s'.heap[t]? = s.heap[t]? := by rw [h, List.getElem?_append_left hlt]
    rw [State.Open, State.Open, hget]
    exact ⟨Or.inl, fun ho => ho.resolve_right fun hr => absurd hr.1 (Nat.ne_of_lt hlt)⟩
  · have hget : s'.heap[s.heap.length]? = some tx := by
      rw [h, List.getElem?_append_right (le_refl _), Nat.sub_self]
      rfl
    have hnone : s.heap[s.heap.length]? = none := List.getElem?_eq_none (le_refl _)
    rw [State.Open, State.Open, hget, hnone]
    simp
  · have hget : s'.heap[t]? = none := by
      rw [h]
      exact List.getElem?_eq_none (by rw [List.length_append, List.length_singleton]; omega)
    have hnone : s.heap[t]? = none := List.getElem?_eq_none (by omega)
    rw [State.Open, State.Open, hget, hnone]
    refine ⟨fun ho => Or.inl ho, fun ho => ho.resolve_right fun hr => ?_⟩
    exact absurd hr.1 (Nat.ne_of_gt hgt)

/-- Closing a transaction leaves the others open. -/
theorem open_set {s' : State} (h : s'.heap = s.heap.set t tx.closed) :
    s'.Open w t' ↔ t' ≠ t ∧ s.Open w t' := by
  by_cases heq : t' = t
  · subst heq
    refine ⟨?_, fun ho => absurd rfl ho.1⟩
    rintro ⟨tx', hget, ho⟩
    rw [h, List.getElem?_set_self'] at hget
    rcases hs : s.heap[t']? with - | old
    · rw [hs] at hget
      cases hget
    · rw [hs] at hget
      cases hget
      exact absurd ho not_isOpen_closed
  · have hget : s'.heap[t']? = s.heap[t']? := by
      rw [h, List.getElem?_set_ne (Ne.symm heq)]
    rw [State.Open, State.Open, hget]
    exact ⟨fun ho => ⟨heq, ho⟩, fun ho => ho.2⟩

end

/-! #### The invariant -/

/-- A new transaction has a snapshot, and the others have theirs. -/
theorem snapshot_append (hi : Inv s) {s' : State} {tx : Transaction}
    (h : s'.heap = s.heap ++ [tx]) (hnew : tx.meta_.isSome = true) {t : TxPtr}
    {tx' : Transaction} (ht : s'.heap[t]? = some tx') (hdb : tx'.db_.isSome = true) :
    tx'.meta_.isSome = true := by
  rw [h] at ht
  rcases List.mem_append.mp (List.mem_of_getElem? ht) with hmem | hmem
  · obtain ⟨i, hget⟩ := List.mem_iff_getElem?.mp hmem
    exact hi.snapshot i tx' hget hdb
  · rw [List.mem_singleton.mp hmem]
    exact hnew

/-- Closing a transaction does not create one without a snapshot. -/
theorem snapshot_set (hi : Inv s) {s' : State} {t : TxPtr} {tx : Transaction}
    (h : s'.heap = s.heap.set t tx.closed) {t' : TxPtr} {tx' : Transaction}
    (ht : s'.heap[t']? = some tx') (hdb : tx'.db_.isSome = true) : tx'.meta_.isSome = true := by
  rw [h] at ht
  rcases List.mem_or_eq_of_mem_set (List.mem_of_getElem? ht) with hmem | rfl
  · obtain ⟨i, hget⟩ := List.mem_iff_getElem?.mp hmem
    exact hi.snapshot i tx' hget hdb
  · cases hdb

theorem inv_withReader (hi : Inv s) (new : NewTx) : Inv (s.withReader new) where
  metalock := hi.metalock
  mmaplock := rfl
  statlock := hi.statlock
  txs t ht := by
    have hlen : (s.withReader new).heap.length = s.heap.length + 1 := List.length_append
    rw [hlen]
    rcases List.mem_append.mp ht with ht | ht
    · exact Nat.lt_succ_of_lt (hi.txs t ht)
    · rw [List.mem_singleton.mp ht]
      exact Nat.lt_succ_self _
  snapshot _ _ ht hdb := snapshot_append hi rfl rfl ht hdb
  reader t ho := by
    rcases (open_append rfl).mp ho with ho | ⟨rfl, -⟩
    · exact List.mem_append_left _ (hi.reader t ho)
    · exact List.mem_append_right _ (List.mem_singleton_self _)
  writer t ho := by
    rcases (open_append rfl).mp ho with ho | ⟨-, hnew⟩
    · exact hi.writer t ho
    · cases (isOpen_construct _ _).mp hnew

theorem inv_withWriter (hi : Inv s) (hrw : s.rwlock_ = ⟨false⟩) (new : NewTx)
    (stale : TxPtr → Txid) : Inv (s.withWriter inplace_merge new stale) where
  metalock := hi.metalock
  mmaplock := hi.mmaplock
  statlock := hi.statlock
  txs t ht := by
    have hlen : (s.withWriter inplace_merge new stale).heap.length = s.heap.length + 1 :=
      List.length_append
    rw [hlen]
    exact Nat.lt_succ_of_lt (hi.txs t ht)
  snapshot _ _ ht hdb := snapshot_append hi rfl rfl ht hdb
  reader t ho := by
    rcases (open_append rfl).mp ho with ho | ⟨-, hnew⟩
    · exact hi.reader t ho
    · cases (isOpen_construct _ _).mp hnew
  writer t ho := by
    rcases (open_append rfl).mp ho with ho | ⟨rfl, -⟩
    · -- an earlier writer would hold the lock
      have := (hi.writer t ho).1
      rw [hrw] at this
      cases this
    · exact ⟨rfl, rfl⟩

theorem inv_withoutReader (hi : Inv s) (t : TxPtr) (tx : Transaction) :
    Inv (s.withoutReader t tx) where
  metalock := hi.metalock
  mmaplock := hi.mmaplock
  statlock := hi.statlock
  txs t' ht' := by
    have hlen : (s.withoutReader t tx).heap.length = s.heap.length := List.length_set
    rw [hlen]
    exact hi.txs t' ht'
  snapshot _ _ ht' hdb := snapshot_set hi rfl ht' hdb
  reader t' ho := hi.reader t' ((open_set rfl).mp ho).2
  writer t' ho := hi.writer t' ((open_set rfl).mp ho).2

theorem inv_withoutWriter (hi : Inv s) {t : TxPtr} (ho : s.Open true t) (tx : Transaction) :
    Inv (s.withoutWriter t tx) where
  metalock := hi.metalock
  mmaplock := hi.mmaplock
  statlock := hi.statlock
  txs t' ht' := by
    have hlen : (s.withoutWriter t tx).heap.length = s.heap.length := List.length_set
    rw [hlen]
    exact hi.txs t' ht'
  snapshot _ _ ht' hdb := snapshot_set hi rfl ht' hdb
  reader t' ho' := hi.reader t' ((open_set rfl).mp ho').2
  writer t' ho' := by
    -- there is no other writer
    obtain ⟨hne, ho'⟩ := (open_set rfl).mp ho'
    have := (hi.writer t ho).2.symm.trans (hi.writer t' ho').2
    exact absurd (Option.some.inj this).symm hne

/-- **Every event keeps the invariant.** -/
theorem inv_step (hi : Inv s) (e : Event) : Inv (step inplace_merge s e) := by
  have hdid := step_did inplace_merge hi e
  generalize step inplace_merge s e = s' at hdid
  cases hdid with
  | nothing => exact hi
  | reader => exact inv_withReader hi _
  | writer hrw => exact inv_withWriter hi hrw _ _
  | closedReader => exact inv_withoutReader hi _ _
  | closedWriter ht _ ho => exact inv_withoutWriter hi ⟨_, ht, ho⟩ _
  | freed =>
      exact ⟨⟨hi.metalock, hi.mmaplock, hi.statlock, hi.txs⟩, hi.snapshot, hi.reader, hi.writer⟩

theorem inv_run (events : List Event) (hi : Inv s) : Inv (run inplace_merge s events) :=
  Runs.invariant (I := Inv) (fun _ e hi => inv_step hi e) events hi

/-- The states of the database that calls can lead to. -/
def Reachable (inplace_merge : Merge Pgid) (s : State) : Prop :=
  ∃ s₀ events, Fresh s₀ ∧ s = run inplace_merge s₀ events

theorem Reachable.inv (hr : Reachable inplace_merge s) : Inv s := by
  obtain ⟨s₀, events, h₀, rfl⟩ := hr
  exact inv_run events h₀.inv

end BoltCpp
