/-
BoltCpp/Threads.lean

Threads that call `begin` and `rollback` on one database at the same time.

A call is cut into lines: a line takes one lock, gives one back, or runs the
code between two of them.  The threads take turns line by line, in any order;
a line that waits for a lock is not taken.  A thread is somewhere in a call
(`Pc`) with what the call has in its variables, or between two calls with what
the last one ended with.

`alone_begin` and `alone_rollback` say that the lines of a call, taken one
after the other, are the call.
-/
import BoltCpp.Transactions

namespace BoltCpp

open Locks RangeMerge

/-! ### The locks -/

/-- The locks of a `DB`. -/
inductive Lock where
  | rwlock
  | metalock
  /-- taken shared -/
  | mmaplock
  | statlock
  deriving DecidableEq, Repr

namespace Lock

def take : Lock → Action Unit
  | rwlock => DB.rwlock_lock
  | metalock => DB.metalock_lock
  | mmaplock => DB.mmaplock_lock_shared
  | statlock => DB.statlock_lock

def give : Lock → Action Unit
  | rwlock => DB.rwlock_unlock
  | metalock => DB.metalock_unlock
  | mmaplock => DB.mmaplock_unlock_shared
  | statlock => DB.statlock_unlock

end Lock

/-! ### Places -/

/-- What a call ends with: a new transaction, nothing, or an exception. -/
abbrev Outcome := Except Exception (Option TxPtr)

/-- What `close` has in its variables: the transaction, and what it grabbed
from the freelist. -/
structure Closing where
  t : TxPtr
  tx : Transaction
  freelist_free_n : Int
  freelist_pending_n : Int
  freelist_alloc : Int

/-- Where a thread is. -/
inductive Pc where
  /-- between calls -/
  | idle (last : Outcome)
  -- `begin_tx`
  | readLock (new : NewTx)
  | readMmap (new : NewTx)
  | readBody (new : NewTx)
  | readRefuse
  | readRefused
  | readUnlock (t : TxPtr)
  | readStat (t : TxPtr)
  | readCount (t : TxPtr)
  | readDone (t : TxPtr)
  -- `begin_rwtx`
  | writeTest (new : NewTx) (stale : TxPtr → Txid)
  | writeLock (new : NewTx) (stale : TxPtr → Txid)
  | writeMeta (new : NewTx) (stale : TxPtr → Txid)
  | writeBody (new : NewTx) (stale : TxPtr → Txid)
  | writeRefuse
  | writeRefused
  | writeDone (t : TxPtr)
  -- `rollback` and `close`
  | rollBody (snapshot : Meta) (t : TxPtr)
  | closeUnlock (k : Closing)
  | closeStat (k : Closing)
  | closeMerge (k : Closing)
  | closeDone (k : Closing)
  | closeClear (k : Closing)

namespace Pc

/-- The line a thread is at, and where it gets by it. -/
def line (inplace_merge : Merge Pgid) : Pc → Action Pc
  | idle _ => throw .blocked
  | readLock new => do
      Lock.metalock.take
      pure (readMmap new)
  | readMmap new => do
      Lock.mmaplock.take
      pure (readBody new)
  | readBody new => do
      let s ← get
      if s.opened_ then pure readRefuse
      else
        let t ← Tx.alloc false new
        modify fun s => { s with txs_ := s.txs_ ++ [t] }
        pure (readUnlock t)
  | readRefuse => do
      Lock.mmaplock.give
      pure readRefused
  | readRefused => do
      Lock.metalock.give
      pure (idle (.error .databaseNotOpen))
  | readUnlock t => do
      Lock.metalock.give
      pure (readStat t)
  | readStat t => do
      Lock.statlock.take
      pure (readCount t)
  | readCount t => do
      modify fun s =>
        { s with
          stats_ := { s.stats_ with tx_n := s.stats_.tx_n + 1, open_tx_n := s.txs_.length } }
      pure (readDone t)
  | readDone t => do
      Lock.statlock.give
      pure (idle (.ok (some t)))
  | writeTest new stale => do
      let s ← get
      if s.read_only_ then pure (idle (.error .databaseReadOnly)) else pure (writeLock new stale)
  | writeLock new stale => do
      Lock.rwlock.take
      pure (writeMeta new stale)
  | writeMeta new stale => do
      Lock.metalock.take
      pure (writeBody new stale)
  | writeBody new stale => do
      let s ← get
      if s.opened_ then pure writeRefuse
      else
        let t ← Tx.alloc true new
        modify fun s => { s with rwtx_ := some t }
        modify fun s => { s with freelist_ := s.freed inplace_merge stale }
        pure (writeDone t)
  | writeRefuse => do
      Lock.rwlock.give
      pure writeRefused
  | writeRefused => do
      Lock.metalock.give
      pure (idle (.error .databaseNotOpen))
  | writeDone t => do
      Lock.metalock.give
      pure (idle (.ok (some t)))
  | rollBody snapshot t => do
      let tx ← Tx.deref t
      if tx.managed_ then throw (.fault (.assertion "!managed_"))
      else if tx.db_.isNone then pure (idle (.error .txClosed))
      else if tx.writable_ then
        match tx.meta_ with
        | some m => modify fun s =>
            { s with
              freelist_ := (s.freelist_.rollback m.txid).reload (s.toDB.page snapshot.freelist) }
        | none => throw (.fault .nullDeref)
        let s ← get
        modify fun s => { s with rwtx_ := none }
        pure (closeUnlock
          ⟨t, tx, s.freelist_.free_count, s.freelist_.pending_count, s.freelist_.size⟩)
      else
        DB.remove_tx t
        modify fun s => { s with heap := s.heap.set t tx.closed }
        pure (idle (.ok none))
  | closeUnlock k => do
      Lock.rwlock.give
      pure (closeStat k)
  | closeStat k => do
      Lock.statlock.take
      pure (closeMerge k)
  | closeMerge k => do
      modify fun s =>
        { s with
          stats_ :=
            { s.stats_ with
              free_page_n := k.freelist_free_n
              pending_page_n := k.freelist_pending_n
              free_alloc := (k.freelist_free_n + k.freelist_pending_n) * s.toDB.page_size
              freelist_inuse := k.freelist_alloc
              tx_stats := s.stats_.tx_stats.add k.tx.stats_ } }
      pure (closeDone k)
  | closeDone k => do
      Lock.statlock.give
      pure (closeClear k)
  | closeClear k => do
      modify fun s => { s with heap := s.heap.set k.t k.tx.closed }
      pure (idle (.ok none))

/-- A thread between calls. -/
def isIdle : Pc → Bool
  | idle _ => true
  | _ => false

/-- The transaction a call is about, once there is one. -/
def tx : Pc → Option TxPtr
  | readUnlock t => some t
  | readStat t => some t
  | readCount t => some t
  | readDone t => some t
  | writeDone t => some t
  | rollBody _ t => some t
  | closeUnlock k => some k.t
  | closeStat k => some k.t
  | closeMerge k => some k.t
  | closeDone k => some k.t
  | closeClear k => some k.t
  | _ => none

/-- The lock the next line takes. -/
def wants : Pc → Option Lock
  | readLock _ => some .metalock
  | readMmap _ => some .mmaplock
  | readStat _ => some .statlock
  | writeLock _ _ => some .rwlock
  | writeMeta _ _ => some .metalock
  | closeStat _ => some .statlock
  | _ => none

/-- The lock the next line gives back. -/
def gives : Pc → Option Lock
  | readRefuse => some .mmaplock
  | readRefused => some .metalock
  | readUnlock _ => some .metalock
  | readDone _ => some .statlock
  | writeRefuse => some .rwlock
  | writeRefused => some .metalock
  | writeDone _ => some .metalock
  | closeUnlock _ => some .rwlock
  | closeDone _ => some .statlock
  | _ => none

/-- How many lines a call has left at most. -/
def left : Pc → Nat
  | idle _ => 0
  | readLock _ => 7
  | readMmap _ => 6
  | readBody _ => 5
  | readRefuse => 2
  | readRefused => 1
  | readUnlock _ => 4
  | readStat _ => 3
  | readCount _ => 2
  | readDone _ => 1
  | writeTest _ _ => 6
  | writeLock _ _ => 5
  | writeMeta _ _ => 4
  | writeBody _ _ => 3
  | writeRefuse => 2
  | writeRefused => 1
  | writeDone _ => 1
  | rollBody _ _ => 6
  | closeUnlock _ => 5
  | closeStat _ => 4
  | closeMerge _ => 3
  | closeDone _ => 2
  | closeClear _ => 1

end Pc

/-! ### The lines between locks -/

/-- The state after a reader was created and listed. -/
def State.listed (s : State) (new : NewTx) : State :=
  { s with
    txs_ := s.txs_ ++ [s.heap.length]
    heap := s.heap ++ [Tx.construct s.toDB false new] }

/-- The state after a writer was created, and after pages were released. -/
def State.created (s : State) (new : NewTx) : State :=
  { s with
    rwtx_ := some s.heap.length
    heap := s.heap ++ [Tx.construct s.toDB true new] }

def State.released (s : State) (inplace_merge : Merge Pgid) (stale : TxPtr → Txid) : State :=
  { s with freelist_ := s.freed inplace_merge stale }

/-- What `close` finds. -/
def Closing.of (t : TxPtr) (tx : Transaction) : Closing := ⟨t, tx, 0, 0, 0⟩

section

variable {inplace_merge : Merge Pgid} {s : State} {new : NewTx} {stale : TxPtr → Txid}

theorem get_eq (s : State) : (get : Action State) s = .ok s s := rfl

theorem readBody_eq :
    Pc.line inplace_merge (.readBody new) s
      = if s.opened_ then .ok .readRefuse s
        else .ok (.readUnlock s.heap.length) (s.listed new) := by
  rw [Pc.line, bind_ok (get_eq s)]
  split <;> rfl

theorem writeTest_eq :
    Pc.line inplace_merge (.writeTest new stale) s
      = if s.read_only_ then .ok (.idle (.error .databaseReadOnly)) s
        else .ok (.writeLock new stale) s := by
  rw [Pc.line, bind_ok (get_eq s)]
  split <;> rfl

theorem writeBody_eq :
    Pc.line inplace_merge (.writeBody new stale) s
      = if s.opened_ then .ok .writeRefuse s
        else .ok (.writeDone s.heap.length)
          ((s.created new).released inplace_merge stale) := by
  rw [Pc.line, bind_ok (get_eq s)]
  split <;> rfl

variable {t : TxPtr} {tx : Transaction} {snapshot : Meta} (ht : s.heap[t]? = some tx)
  (hm : tx.managed_ = false)

include ht hm

theorem rollBody_closed (hdb : tx.db_ = none) :
    Pc.line inplace_merge (.rollBody snapshot t) s = .ok (.idle (.error .txClosed)) s := by
  rw [Pc.line, bind_ok (deref_eq ht), hm, hdb]
  rfl

theorem rollBody_reader (ho : tx.IsOpen false) :
    Pc.line inplace_merge (.rollBody snapshot t) s
      = .ok (.idle (.ok none)) (s.withoutReader t tx) := by
  obtain ⟨db, hdb⟩ := Option.isSome_iff_exists.mp ho.db
  rw [Pc.line, bind_ok (deref_eq ht), hm, hdb, ho.kind]
  rfl

theorem rollBody_writer (ho : tx.IsOpen true) (hmeta : tx.meta_.isSome = true) :
    Pc.line inplace_merge (.rollBody snapshot t) s
      = .ok (.closeUnlock (.of t tx)) { s with rwtx_ := none } := by
  obtain ⟨db, hdb⟩ := Option.isSome_iff_exists.mp ho.db
  obtain ⟨m, hm'⟩ := Option.isSome_iff_exists.mp hmeta
  rw [Pc.line, bind_ok (deref_eq ht), hm, hdb, ho.kind, hm']
  rfl

end

/-! ### A call on its own -/

/-- The first line of a call. -/
def Event.entry : Event → Option Pc
  | .begin false new _ => some (.readLock new)
  | .begin true new stale => some (.writeTest new stale)
  | .rollback snapshot t => some (.rollBody snapshot t)
  | .free _ => none

/-- `n` lines of a call one after the other, fewer if it ends. -/
def Pc.lines (inplace_merge : Merge Pgid) : Nat → Pc → Action Pc
  | 0, pc => pure pc
  | n + 1, pc => if pc.isIdle then pure pc else do lines inplace_merge n (← pc.line inplace_merge)

/-- A call as a thread sees it: what it throws is what it ends with. -/
def ended {α : Type} (result : α → Option TxPtr) (call : Action α) : Action Pc := fun s =>
  match call s with
  | .ok a s' => .ok (.idle (.ok (result a))) s'
  | .error (.threw e) s' => .ok (.idle (.error e)) s'
  | .error stop s' => .error stop s'

section

variable {inplace_merge : Merge Pgid} {pc pc' : Pc} {n : Nat} {s s' : State}

theorem lines_idle (n : Nat) (last : Outcome) :
    Pc.lines inplace_merge n (.idle last) s = .ok (.idle last) s := by
  cases n <;> rfl

theorem lines_ok (hpc : pc.isIdle = false) (h : pc.line inplace_merge s = .ok pc' s') :
    Pc.lines inplace_merge (n + 1) pc s = Pc.lines inplace_merge n pc' s' := by
  have hbind : (pc.line inplace_merge >>= Pc.lines inplace_merge n) s
      = Pc.lines inplace_merge n pc' s' := bind_ok h
  rw [← hbind, Pc.lines, hpc]
  rfl

theorem lines_error (hpc : pc.isIdle = false) {stop : Stop}
    (h : pc.line inplace_merge s = .error stop s') :
    Pc.lines inplace_merge (n + 1) pc s = .error stop s' := by
  have hbind : (pc.line inplace_merge >>= Pc.lines inplace_merge n) s = .error stop s' :=
    bind_error h
  rw [← hbind, Pc.lines, hpc]
  rfl

/-- A piece of a call that throws nothing. -/
def Quietly (x : Action Unit) : Prop := ∀ s e s', x s ≠ .error (.threw e) s'

theorem quietly_acquire (lock : State → Option State) : Quietly (acquire lock) := by
  intro s e s' h
  rw [acquire] at h
  split at h <;> cases h

theorem quietly_relinquish (unlock : State → Option State) : Quietly (relinquish unlock) := by
  intro s e s' h
  rw [relinquish] at h
  split at h <;> cases h

theorem quietly_modify (f : State → State) : Quietly (modify f) := fun _ _ _ h => by cases h

/-- A line in front of the lines of a call. -/
theorem lines_seq {x : Action Unit} (hx : Quietly x) (hpc : pc.isIdle = false)
    (hline : pc.line inplace_merge = do x; pure pc') {α : Type} {result : α → Option TxPtr}
    {call : Action α} (hrest : ∀ s, Pc.lines inplace_merge n pc' s = ended result call s)
    (s : State) :
    Pc.lines inplace_merge (n + 1) pc s = ended result (do x; call) s := by
  rcases h : x s with ⟨u, s'⟩ | ⟨stop, s'⟩
  · have hcall : (do x; call) s = call s' := bind_ok h
    have hstep : pc.line inplace_merge s = .ok pc' s' := by
      rw [hline]
      exact bind_ok h
    rw [lines_ok hpc hstep, hrest, ended, ended, hcall]
  · have hcall : (do x; call) s = .error stop s' := bind_error h
    have hstep : pc.line inplace_merge s = .error stop s' := by
      rw [hline]
      exact bind_error h
    rw [lines_error hpc hstep, ended, hcall]
    cases stop with
    | threw e => exact absurd h (hx s e s')
    | blocked => rfl
    | unlocked => rfl
    | fault f => rfl

/-- `begin(false)` from where the transaction is listed. -/
theorem lines_readUnlock (t : TxPtr) (s : State) :
    Pc.lines inplace_merge 4 (.readUnlock t) s = ended some (do
      DB.metalock_unlock
      DB.statlock_lock
      modify fun s =>
        { s with
          stats_ := { s.stats_ with tx_n := s.stats_.tx_n + 1, open_tx_n := s.txs_.length } }
      DB.statlock_unlock
      pure t) s :=
  lines_seq (quietly_relinquish _) rfl rfl (lines_seq (quietly_acquire _) rfl rfl
    (lines_seq (quietly_modify _) rfl rfl (lines_seq (quietly_relinquish _) rfl rfl
      fun _ => lines_idle 0 _))) s

/-- **`begin(false)` is its lines.** -/
theorem alone_begin_tx (new : NewTx) (s : State) :
    Pc.lines inplace_merge 7 (.readLock new) s = ended some (DB.begin_tx new) s := by
  refine lines_seq (quietly_acquire _) rfl rfl (lines_seq (quietly_acquire _) rfl rfl ?_) s
  intro s
  rcases ho : s.opened_ with - | -
  · have hstep : Pc.line inplace_merge (.readBody new) s
        = .ok (.readUnlock s.heap.length) (s.listed new) := by
      rw [readBody_eq, ho]
      rfl
    rw [lines_ok rfl hstep, lines_readUnlock, ended, ended, bind_ok (get_eq s), ho]
    rfl
  · have hstep : Pc.line inplace_merge (.readBody new) s = .ok .readRefuse s := by
      rw [readBody_eq, ho]
      rfl
    have hrest : ∀ s, Pc.lines inplace_merge 4 .readRefuse s = ended some (do
        DB.mmaplock_unlock_shared
        DB.metalock_unlock
        throw (.threw .databaseNotOpen)) s :=
      lines_seq (quietly_relinquish _) rfl rfl (lines_seq (quietly_relinquish _) rfl rfl
        fun _ => lines_idle 2 _)
    rw [lines_ok rfl hstep, hrest, ended, ended, bind_ok (get_eq s), ho]
    rfl

/-- **`begin(true)` is its lines.** -/
theorem alone_begin_rwtx (new : NewTx) (stale : TxPtr → Txid) (s : State) :
    Pc.lines inplace_merge 6 (.writeTest new stale) s
      = ended some (DB.begin_rwtx inplace_merge new stale) s := by
  rcases hr : s.read_only_ with - | -
  · have hstep : Pc.line inplace_merge (.writeTest new stale) s = .ok (.writeLock new stale) s := by
      rw [writeTest_eq, hr]
      rfl
    rw [lines_ok rfl hstep, ended, DB.begin_rwtx, bind_ok (get_eq s), hr]
    refine lines_seq (quietly_acquire _) rfl rfl (lines_seq (quietly_acquire _) rfl rfl ?_) s
    intro s
    rcases ho : s.opened_ with - | -
    · have hstep : Pc.line inplace_merge (.writeBody new stale) s = .ok (.writeDone s.heap.length)
          ((s.created new).released inplace_merge stale) := by
        rw [writeBody_eq, ho]
        rfl
      have hrest : ∀ t s, Pc.lines inplace_merge 2 (.writeDone t) s = ended some (do
          DB.metalock_unlock
          pure t) s := fun t =>
        lines_seq (quietly_relinquish _) rfl rfl fun _ => lines_idle 1 _
      rw [lines_ok rfl hstep, hrest, ended, ended, bind_ok (get_eq s), ho]
      rfl
    · have hstep : Pc.line inplace_merge (.writeBody new stale) s = .ok .writeRefuse s := by
        rw [writeBody_eq, ho]
        rfl
      have hrest : ∀ s, Pc.lines inplace_merge 2 .writeRefuse s = ended some (do
          DB.rwlock_unlock
          DB.metalock_unlock
          throw (.threw .databaseNotOpen)) s :=
        lines_seq (quietly_relinquish _) rfl rfl (lines_seq (quietly_relinquish _) rfl rfl
          fun _ => lines_idle 0 _)
      rw [lines_ok rfl hstep, hrest, ended, ended, bind_ok (get_eq s), ho]
      rfl
  · have hstep : Pc.line inplace_merge (.writeTest new stale) s
        = .ok (.idle (.error .databaseReadOnly)) s := by
      rw [writeTest_eq, hr]
      rfl
    rw [lines_ok rfl hstep, lines_idle, ended, DB.begin_rwtx, bind_ok (get_eq s), hr]
    rfl

/-- `rollback` of a writer from where the lock is to be given back. -/
theorem lines_closeUnlock (k : Closing) (s : State) :
    Pc.lines inplace_merge 5 (.closeUnlock k) s = ended (fun _ => none) (do
      DB.rwlock_unlock
      DB.statlock_lock
      modify fun s =>
        { s with
          stats_ :=
            { s.stats_ with
              free_page_n := k.freelist_free_n
              pending_page_n := k.freelist_pending_n
              free_alloc := (k.freelist_free_n + k.freelist_pending_n) * s.toDB.page_size
              freelist_inuse := k.freelist_alloc
              tx_stats := s.stats_.tx_stats.add k.tx.stats_ } }
      DB.statlock_unlock
      modify fun s => { s with heap := s.heap.set k.t k.tx.closed }) s := by
  refine lines_seq (quietly_relinquish _) rfl rfl (lines_seq (quietly_acquire _) rfl rfl
    (lines_seq (quietly_modify _) rfl rfl (lines_seq (quietly_relinquish _) rfl rfl ?_))) s
  exact fun _ => rfl

/-- **`rollback` is its lines.** -/
theorem alone_rollback (snapshot : Meta) (t : TxPtr) (s : State) :
    Pc.lines inplace_merge 6 (.rollBody snapshot t) s
      = ended (fun _ => none) (Tx.rollback snapshot t) s := by
  rcases ht : s.heap[t]? with - | tx
  · have hderef : Tx.deref t s = .error (.fault .nullDeref) s := by rw [Tx.deref, ht]
    have hcall : Tx.rollback snapshot t s = .error (.fault .nullDeref) s := bind_error hderef
    rw [lines_error rfl (bind_error hderef), ended, hcall]
  rcases hm : tx.managed_ with - | -
  · rcases hdb : tx.db_ with - | db
    · rw [lines_ok rfl (rollBody_closed ht hm hdb), lines_idle, ended,
        rollback_closed ht hm hdb]
    have hopen : tx.db_.isSome = true := by rw [hdb]; rfl
    rcases hw : tx.writable_ with - | -
    · rw [lines_ok rfl (rollBody_reader ht hm ⟨hopen, hw⟩), lines_idle, ended,
        rollback_reader ht hm ⟨hopen, hw⟩]
    have hcall : Tx.rollback snapshot t s = Tx.rollback_ snapshot t s := rollback_open ht hm hopen _
    rcases hmeta : tx.meta_ with - | m
    · have hstep : Pc.line inplace_merge (.rollBody snapshot t) s
          = .error (.fault .nullDeref) s := by
        rw [Pc.line, bind_ok (deref_eq ht), hm, hdb, hw, hmeta]
        rfl
      rw [lines_error rfl hstep, ended, hcall, Tx.rollback_, bind_ok (deref_eq ht), hdb, hw, hmeta]
      rfl
    · have hsome : tx.meta_.isSome = true := by rw [hmeta]; rfl
      have hclose : Tx.rollback_ snapshot t s = Tx.close t s := by
        rw [Tx.rollback_, bind_ok (deref_eq ht), hdb, hw, hmeta]
        rfl
      rw [lines_ok rfl (rollBody_writer ht hm ⟨hopen, hw⟩ hsome), lines_closeUnlock, ended, ended,
        hcall, hclose, Tx.close, bind_ok (deref_eq ht), hdb, hw]
      rfl
  · have hstep : Pc.line inplace_merge (.rollBody snapshot t) s
        = .error (.fault (.assertion "!managed_")) s := by
      rw [Pc.line, bind_ok (deref_eq ht), hm]
      rfl
    rw [lines_error rfl hstep, ended, Tx.rollback, bind_ok (deref_eq ht), hm]
    rfl

end

end BoltCpp
