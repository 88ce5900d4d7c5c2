/-
BoltCpp/Database.lean

Transactions of a database (`db.cpp`, `tx.cpp`): `begin`, `update`, `commit`
and `rollback`, with the locks they take.

The state is the `DB` object and the `Tx` objects that exist; a pointer to a
`Tx` is its number in the order of their creation.  A call ends by returning,
by throwing, or not at all, because it waits for a lock or has failed; the
state it leaves behind is part of the result in each case.

`DB::meta()` is a stub.  The meta page it is to return is given with every
`begin`, and so is what the fields hold that the constructor of `Tx` does not
set (`NewTx`).  Its `root` is taken to point to a bucket header, which the
constructor copies into the root bucket, left out here.
-/
import BoltCpp.Bucket
import BoltCpp.FreeList
import BoltCpp.Meta
import BoltCpp.Lib.Locks

namespace BoltCpp

open Locks RangeMerge

/-! ### The objects -/

/-- `TxStats`.  Times are in milliseconds; the numbers wrap around. -/
structure TxStats where
  page_count : Int32
  page_alloc : Int32
  cursor_count : Int32
  node_count : Int32
  node_deref : Int32
  rebalance : Int32
  rebalance_time : Int64
  split : Int32
  spill : Int32
  spill_time : Int64
  write : Int32
  write_time : Int64
  deriving DecidableEq, Repr

/-- `operator+=` -/
def TxStats.add (lhs rhs : TxStats) : TxStats where
  page_count := lhs.page_count + rhs.page_count
  page_alloc := lhs.page_alloc + rhs.page_alloc
  cursor_count := lhs.cursor_count + rhs.cursor_count
  node_count := lhs.node_count + rhs.node_count
  node_deref := lhs.node_deref + rhs.node_deref
  rebalance := lhs.rebalance + rhs.rebalance
  rebalance_time := lhs.rebalance_time + rhs.rebalance_time
  split := lhs.split + rhs.split
  spill := lhs.spill + rhs.spill
  spill_time := lhs.spill_time + rhs.spill_time
  write := lhs.write + rhs.write
  write_time := lhs.write_time + rhs.write_time

/-- `Stats`.  The numbers are taken to stay in the range of `int`. -/
structure Stats where
  free_page_n : Int
  pending_page_n : Int
  free_alloc : Int
  freelist_inuse : Int
  tx_n : Int
  open_tx_n : Int
  tx_stats : TxStats
  deriving DecidableEq, Repr

/-- A pointer to a `Tx`. -/
abbrev TxPtr := Nat

/-- `Tx`.  `meta_` is nothing once it is deleted. -/
structure Transaction extends Tx where
  writable_ : Bool
  managed_ : Bool
  meta_ : Option Meta
  stats_ : TxStats

/-- `PagePool`: the size of the pages its `new_page_` allocates. -/
structure PagePool where
  new_page_ : Int
  deriving DecidableEq, Repr

/-- `DB`, beyond the mapped file. -/
structure Database extends DB where
  opened_ : Bool
  read_only_ : Bool
  page_size_ : Int
  data_sz_ : Int
  rwtx_ : Option TxPtr
  txs_ : List TxPtr
  freelist_ : FreeList
  stats_ : Stats
  page_pool_ : PagePool
  rwlock_ : Mutex
  metalock_ : Mutex
  mmaplock_ : SharedMutex
  statlock_ : SharedMutex

/-- `DB::page_size()` -/
def DB.page_size (db : DB) : Int := db.pageSize_

/-- The database and the transactions that exist. -/
structure State extends Database where
  heap : List Transaction

/-- What a new transaction finds: the meta page, and the fields that are left
as they are. -/
structure NewTx where
  snapshot : Meta
  managed_ : Bool
  stats_ : TxStats

/-! ### Calls -/

/-- How a call can end without returning. -/
inductive Stop where
  | threw (e : Exception)
  /-- it waits for a lock -/
  | blocked
  /-- it gives back a lock that is not held -/
  | unlocked
  | fault (f : Fault)
  deriving DecidableEq, Repr

abbrev Action (α : Type) := EStateM Stop State α

/-- The state a call leaves behind. -/
def stateAfter {α : Type} : EStateM.Result Stop State α → State
  | .ok _ s => s
  | .error _ s => s

/-- Take a lock, or wait for it. -/
def acquire (lock : State → Option State) : Action Unit := fun s =>
  match lock s with
  | some s' => .ok () s'
  | none => .error .blocked s

/-- Give a lock back. -/
def relinquish (unlock : State → Option State) : Action Unit := fun s =>
  match unlock s with
  | some s' => .ok () s'
  | none => .error .unlocked s

namespace DB

def rwlock_lock : Action Unit :=
  acquire fun s => s.rwlock_.lock.map fun l => { s with rwlock_ := l }

def rwlock_unlock : Action Unit :=
  relinquish fun s => s.rwlock_.unlock.map fun l => { s with rwlock_ := l }

def metalock_lock : Action Unit :=
  acquire fun s => s.metalock_.lock.map fun l => { s with metalock_ := l }

def metalock_unlock : Action Unit :=
  relinquish fun s => s.metalock_.unlock.map fun l => { s with metalock_ := l }

def mmaplock_lock_shared : Action Unit :=
  acquire fun s => s.mmaplock_.lock_shared.map fun l => { s with mmaplock_ := l }

def mmaplock_unlock_shared : Action Unit :=
  relinquish fun s => s.mmaplock_.unlock_shared.map fun l => { s with mmaplock_ := l }

def statlock_lock : Action Unit :=
  acquire fun s => s.statlock_.lock.map fun l => { s with statlock_ := l }

def statlock_unlock : Action Unit :=
  relinquish fun s => s.statlock_.unlock.map fun l => { s with statlock_ := l }

end DB

/-! ### `Tx` -/

namespace Tx

/-- The constructor. -/
def construct (db : DB) (writable : Bool) (new : NewTx) : Transaction where
  db_ := some db
  pages_ _ := none
  writable_ := writable
  managed_ := new.managed_
  meta_ := some (if writable then new.snapshot.incrementTxID else new.snapshot)
  stats_ := new.stats_

/-- `new Tx(this, writable)` -/
def alloc (writable : Bool) (new : NewTx) : Action TxPtr := fun s =>
  .ok s.heap.length { s with heap := s.heap ++ [construct s.toDB writable new] }

def deref (t : TxPtr) : Action Transaction := fun s =>
  match s.heap[t]? with
  | some tx => .ok tx s
  | none => .error (.fault .nullDeref) s

end Tx

/-- The references that `close` clears. -/
def Transaction.closed (tx : Transaction) : Transaction :=
  { tx with db_ := none, meta_ := none, pages_ := fun _ => none }

/-- `Tx::size()` -/
def Transaction.size (tx : Transaction) : Except Fault Int :=
  match tx.meta_, tx.db_ with
  | some m, some db =>
      pure (((m.pgid.toNat : Int).bmod (2 ^ 64) * db.page_size).bmod (2 ^ 64))
  | _, _ => throw .nullDeref

namespace DB

/-- `remove_tx` has no body. -/
def remove_tx (_t : TxPtr) : Action Unit := pure ()

end DB

namespace Tx

def close (t : TxPtr) : Action Unit := do
  let tx ← deref t
  if tx.db_.isNone then pure ()
  else
    if tx.writable_ then
      let s ← get
      let freelist_free_n := s.freelist_.free_count
      let freelist_pending_n := s.freelist_.pending_count
      let freelist_alloc := s.freelist_.size
      modify fun s => { s with rwtx_ := none }
      DB.rwlock_unlock
      DB.statlock_lock
      modify fun s =>
        { s with
          stats_ :=
            { s.stats_ with
              free_page_n := freelist_free_n
              pending_page_n := freelist_pending_n
              free_alloc := (freelist_free_n + freelist_pending_n) * s.toDB.page_size
              freelist_inuse := freelist_alloc
              tx_stats := s.stats_.tx_stats.add tx.stats_ } }
      DB.statlock_unlock
    else
      DB.remove_tx t
    modify fun s => { s with heap := s.heap.set t tx.closed }

/-- `_rollback`; `snapshot` is what `DB::meta()` returns. -/
def rollback_ (snapshot : Meta) (t : TxPtr) : Action Unit := do
  let tx ← deref t
  if tx.db_.isNone then pure ()
  else
    if tx.writable_ then
      match tx.meta_ with
      | some m => modify fun s =>
          { s with
            freelist_ := (s.freelist_.rollback m.txid).reload (s.toDB.page snapshot.freelist) }
      | none => throw (.fault .nullDeref)
    close t

def rollback (snapshot : Meta) (t : TxPtr) : Action Unit := do
  let tx ← deref t
  if tx.managed_ then throw (.fault (.assertion "!managed_"))
  else if tx.db_.isNone then throw (.threw .txClosed)
  else rollback_ snapshot t

/-- `commit` checks whether it may, and has no body beyond that. -/
def commit (t : TxPtr) : Action Unit := do
  let tx ← deref t
  if tx.managed_ then throw (.fault (.assertion "!managed_"))
  else if tx.db_.isNone then throw (.threw .txClosed)
  else if !tx.writable_ then throw (.threw .txNotWritable)
  else pure ()

end Tx

/-! ### `DB` -/

/-- `tx->meta()->txid`.  The meta of a closed transaction is deleted; what is
read there is `stale`. -/
def State.txid (s : State) (stale : TxPtr → Txid) (t : TxPtr) : Txid :=
  match s.heap[t]?.bind Transaction.meta_ with
  | some m => m.txid
  | none => stale t

/-- The loop of `begin_rwtx` over `txs_`. -/
def State.minid (s : State) (stale : TxPtr → Txid) : Txid :=
  s.txs_.foldl (fun minid tx => if s.txid stale tx < minid then s.txid stale tx else minid)
    0xFFFFFFFFFFFFFFFF

/-- The freelist that `begin_rwtx` leaves: pages associated with closed
read-only transactions are released. -/
def State.freed (s : State) (inplace_merge : Merge Pgid) (stale : TxPtr → Txid) : FreeList :=
  let minid := s.minid stale
  if minid > 0 then s.freelist_.release inplace_merge (minid - 1) else s.freelist_

namespace DB

def begin_tx (new : NewTx) : Action TxPtr := do
  metalock_lock
  mmaplock_lock_shared
  let s ← get
  if s.opened_ then
    mmaplock_unlock_shared
    metalock_unlock
    throw (.threw .databaseNotOpen)
  else
    let t ← Tx.alloc false new
    modify fun s => { s with txs_ := s.txs_ ++ [t] }
    metalock_unlock
    statlock_lock
    modify fun s =>
      { s with
        stats_ := { s.stats_ with tx_n := s.stats_.tx_n + 1, open_tx_n := s.txs_.length } }
    statlock_unlock
    pure t

/-- `begin_rwtx`.  The guard of `metalock_` lets go of it on either way out. -/
def begin_rwtx (inplace_merge : Merge Pgid) (new : NewTx) (stale : TxPtr → Txid) :
    Action TxPtr := do
  let s ← get
  if s.read_only_ then throw (.threw .databaseReadOnly)
  else
    rwlock_lock
    metalock_lock
    let s ← get
    if s.opened_ then
      rwlock_unlock
      metalock_unlock
      throw (.threw .databaseNotOpen)
    else
      let t ← Tx.alloc true new
      modify fun s => { s with rwtx_ := some t }
      modify fun s => { s with freelist_ := s.freed inplace_merge stale }
      metalock_unlock
      pure t

def begin (inplace_merge : Merge Pgid) (writable : Bool) (new : NewTx)
    (stale : TxPtr → Txid) : Action TxPtr :=
  if writable then begin_rwtx inplace_merge new stale else begin_tx new

/-- `update` begins a transaction and calls `fn`, and that is all. -/
def update (inplace_merge : Merge Pgid) (new : NewTx) (stale : TxPtr → Txid)
    (fn : TxPtr → Action Unit) : Action Unit := do
  let tx ← begin inplace_merge true new stale
  fn tx

end DB

end BoltCpp
