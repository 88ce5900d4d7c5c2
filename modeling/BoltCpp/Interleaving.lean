/-
BoltCpp/Interleaving.lean

Any number of threads on one database, one line at a time, in any order.  They
keep to the rules for transactions: a call that `MayCall` does not allow is not
made.

A call takes effect at one of its lines (`Pc.commits`): a reader where it is
listed, a writer where it is created, a `rollback` where it looks at the
transaction, and a refusal where it is refused.  From then on it is settled
what the call ends with (`Pc.outcome`).

Most lines take a lock or give one back: `line_of_wants` and `line_of_gives`
say so, `take_ok` and `give_ok` what comes of it.
-/
import BoltCpp.Stats
import BoltCpp.Threads

namespace BoltCpp

open Locks RangeMerge

/-! ### Threads -/

/-- The database, the places of the threads, and who has begun a
transaction. -/
structure Threads where
  shared : State
  pcs : List Pc
  owner : TxPtr → Nat

/-- A thread starts a call, or takes the line it is at. -/
inductive Move where
  | start (i : Nat) (e : Event)
  | line (i : Nat)

namespace Threads

/-- A thread calls when it is between calls.  It rolls back a transaction it
was given, that is not managed, and that nobody else is busy with.  A writer it
must have begun itself, as it gives back `rwlock_`, and a `std::mutex` belongs
to the thread that has locked it. -/
def MayCall (c : Threads) (i : Nat) (e : Event) : Prop :=
  (∃ pc ∈ c.pcs[i]?, pc.isIdle = true) ∧
    match e with
    | .rollback _ t =>
        (∃ tx ∈ c.shared.heap[t]?,
            tx.managed_ = false ∧ (tx.writable_ = true → c.owner t = i)) ∧
          ∀ pc ∈ c.pcs, pc.tx ≠ some t
    | _ => True

instance (c : Threads) (i : Nat) : ∀ e, Decidable (c.MayCall i e)
  | .begin _ _ _ => inferInstanceAs (Decidable (_ ∧ True))
  | .free _ => inferInstanceAs (Decidable (_ ∧ True))
  | .rollback _ _ => inferInstanceAs (Decidable (_ ∧ _ ∧ _))

/-- After a line of thread `i`, which owns the transactions it has begun. -/
def took (c : Threads) (i : Nat) (s' : State) (pc' : Pc) : Threads where
  shared := s'
  pcs := c.pcs.set i pc'
  owner t := if t < c.shared.heap.length then c.owner t else i

/-- A call is begun, or pages are freed; a line that cannot be taken is
not. -/
def step (inplace_merge : Merge Pgid) (c : Threads) : Move → Threads
  | .start i e =>
      if c.MayCall i e then
        match e.entry with
        | some pc => { c with pcs := c.pcs.set i pc }
        | none => { c with shared := BoltCpp.step inplace_merge c.shared e }
      else c
  | .line i =>
      match c.pcs[i]? with
      | none => c
      | some pc =>
          match pc.line inplace_merge c.shared with
          | .ok pc' s' => c.took i s' pc'
          | .error _ _ => c

def run (inplace_merge : Merge Pgid) (c : Threads) (moves : List Move) : Threads :=
  moves.foldl (step inplace_merge) c

/-- Nobody is in a call. -/
def Finished (c : Threads) : Prop := ∀ pc ∈ c.pcs, pc.isIdle = true

/-- `n` threads that have not called yet. -/
def initial (s : State) (n : Nat) : Threads where
  shared := s
  pcs := List.replicate n (.idle (.ok none))
  owner _ := 0

end Threads

/-! ### Where calls take effect -/

/-- The call that takes effect with the next line. -/
def Pc.commits (s : State) : Pc → List Event
  | readBody new => [.begin false new fun _ => 0]
  | writeTest new stale => if s.read_only_ then [.begin true new stale] else []
  | writeBody new stale => [.begin true new stale]
  | rollBody snapshot t => [.rollback snapshot t]
  | _ => []

/-- What a call that took effect is going to end with, or ended with. -/
def Pc.outcome : Pc → Option Outcome
  | idle r => some r
  | readRefuse => some (.error .databaseNotOpen)
  | readRefused => some (.error .databaseNotOpen)
  | readUnlock t => some (.ok (some t))
  | readStat t => some (.ok (some t))
  | readCount t => some (.ok (some t))
  | readDone t => some (.ok (some t))
  | writeRefuse => some (.error .databaseNotOpen)
  | writeRefused => some (.error .databaseNotOpen)
  | writeDone t => some (.ok (some t))
  | closeUnlock _ => some (.ok none)
  | closeStat _ => some (.ok none)
  | closeMerge _ => some (.ok none)
  | closeDone _ => some (.ok none)
  | closeClear _ => some (.ok none)
  | _ => none

/-- What a call ends with when it is made at once. -/
def Event.outcome (inplace_merge : Merge Pgid) (s : State) : Event → Option Outcome
  | .begin writable new stale =>
      match DB.begin inplace_merge writable new stale s with
      | .ok t _ => some (.ok (some t))
      | .error (.threw e) _ => some (.error e)
      | .error _ _ => none
  | .rollback snapshot t =>
      match Tx.rollback snapshot t s with
      | .ok _ _ => some (.ok none)
      | .error (.threw e) _ => some (.error e)
      | .error _ _ => none
  | .free _ => none

namespace Threads

def commits (c : Threads) : Move → List Event
  | .start i e => if c.MayCall i e ∧ e.entry.isNone then [e] else []
  | .line i =>
      match c.pcs[i]? with
      | none => []
      | some pc => pc.commits c.shared

/-- The calls that took effect during a run, in this order. -/
def committed (inplace_merge : Merge Pgid) (c : Threads) : List Move → List Event
  | [] => []
  | m :: moves => c.commits m ++ committed inplace_merge (c.step inplace_merge m) moves

end Threads

/-! ### What a thread carries -/

namespace Pc

/-- The locks a call holds for itself.  What a transaction keeps from the
moment it is created is not among them. -/
def holds : Pc → Lock → Nat
  | readMmap _, .metalock => 1
  | readBody _, .metalock => 1
  | readBody _, .mmaplock => 1
  | readRefuse, .metalock => 1
  | readRefuse, .mmaplock => 1
  | readRefused, .metalock => 1
  | readUnlock _, .metalock => 1
  | readCount _, .statlock => 1
  | readDone _, .statlock => 1
  | writeMeta _ _, .rwlock => 1
  | writeBody _ _, .rwlock => 1
  | writeBody _ _, .metalock => 1
  | writeRefuse, .rwlock => 1
  | writeRefuse, .metalock => 1
  | writeRefused, .metalock => 1
  | writeDone _, .metalock => 1
  | closeUnlock _, .rwlock => 1
  | closeMerge _, .statlock => 1
  | closeDone _, .statlock => 1
  | _, _ => 0

/-- The call is about `t`. -/
def works (t : TxPtr) (pc : Pc) : Nat := if pc.tx = some t then 1 else 0

/-- A reader that is not counted yet. -/
def counting : Pc → Nat
  | readUnlock _ => 1
  | readStat _ => 1
  | readCount _ => 1
  | _ => 0

/-- A writer that is being closed. -/
def closing : Pc → Option Closing
  | closeUnlock k => some k
  | closeStat k => some k
  | closeMerge k => some k
  | closeDone k => some k
  | closeClear k => some k
  | _ => none

/-- A writer that is being closed, and whose statistics are not merged yet. -/
def merging : Pc → Option Closing
  | closeUnlock k => some k
  | closeStat k => some k
  | closeMerge k => some k
  | _ => none

def merges (pc : Pc) : Nat := if pc.merging.isSome then 1 else 0

def mergingStats (pc : Pc) : TxStats := (pc.merging.map fun k => k.tx.stats_).getD 0

/-- A call for a writer that is past the test. -/
def willing : Pc → Bool
  | writeLock _ _ => true
  | writeMeta _ _ => true
  | writeBody _ _ => true
  | _ => false

/-- A `rollback` that has not looked at its transaction yet. -/
def rolls : Pc → Option TxPtr
  | rollBody _ t => some t
  | _ => none

end Pc

/-- How often a lock is held. -/
def State.taken (s : State) : Lock → Nat
  | .rwlock => s.rwlock_.held.toNat
  | .metalock => s.metalock_.held.toNat
  | .mmaplock => s.mmaplock_.shared
  | .statlock => s.statlock_.exclusive.toNat

/-! ### Lines that take or give a lock -/

/-- A lock operation changes a lock. -/
structure LockStep (s s' : State) : Prop where
  same : { s' with
    rwlock_ := s.rwlock_, metalock_ := s.metalock_, mmaplock_ := s.mmaplock_,
    statlock_ := s.statlock_ } = s
  mmap : s'.mmaplock_.exclusive = s.mmaplock_.exclusive
  stat : s'.statlock_.shared = s.statlock_.shared

variable {inplace_merge : Merge Pgid} {s s' : State} {l : Lock}

theorem acquire_ok {lock : State → Option State} {u : Unit} (h : acquire lock s = .ok u s') :
    lock s = some s' := by
  rw [acquire] at h
  split at h
  · cases h; assumption
  · cases h

theorem relinquish_ok {unlock : State → Option State} {u : Unit}
    (h : relinquish unlock s = .ok u s') : unlock s = some s' := by
  rw [relinquish] at h
  split at h
  · cases h; assumption
  · cases h

/-- **A lock is taken.** -/
theorem take_ok {u : Unit} (h : l.take s = .ok u s') :
    LockStep s s' ∧ ∀ l', s'.taken l' = s.taken l' + if l' = l then 1 else 0 := by
  cases l with
  | rwlock =>
      have hcall : DB.rwlock_lock s = .ok u s' := h
      obtain ⟨m, hm, rfl⟩ := Option.map_eq_some_iff.mp (acquire_ok hcall)
      obtain ⟨h0, h1⟩ := Mutex.lock_some hm
      refine ⟨⟨rfl, rfl, rfl⟩, fun l' => ?_⟩
      cases l' <;> simp [State.taken, h0, h1]
  | metalock =>
      have hcall : DB.metalock_lock s = .ok u s' := h
      obtain ⟨m, hm, rfl⟩ := Option.map_eq_some_iff.mp (acquire_ok hcall)
      obtain ⟨h0, h1⟩ := Mutex.lock_some hm
      refine ⟨⟨rfl, rfl, rfl⟩, fun l' => ?_⟩
      cases l' <;> simp [State.taken, h0, h1]
  | mmaplock =>
      have hcall : DB.mmaplock_lock_shared s = .ok u s' := h
      obtain ⟨m, hm, rfl⟩ := Option.map_eq_some_iff.mp (acquire_ok hcall)
      rw [SharedMutex.lock_shared] at hm
      split at hm
      · cases hm
      · rename_i hex
        cases hm
        refine ⟨⟨rfl, (Bool.eq_false_of_not_eq_true hex).symm, rfl⟩, fun l' => ?_⟩
        cases l' <;> simp [State.taken]
  | statlock =>
      have hcall : DB.statlock_lock s = .ok u s' := h
      obtain ⟨m, hm, rfl⟩ := Option.map_eq_some_iff.mp (acquire_ok hcall)
      have hfree := (s.statlock_.isSome_lock_iff).mp (by rw [hm]; rfl)
      rw [SharedMutex.lock] at hm
      split at hm
      · cases hm
      · cases hm
        refine ⟨⟨rfl, rfl, hfree.2.symm⟩, fun l' => ?_⟩
        cases l' <;> simp [State.taken, hfree.1]

/-- **A lock is given back.** -/
theorem give_ok {u : Unit} (h : l.give s = .ok u s') :
    LockStep s s' ∧ ∀ l', s'.taken l' + (if l' = l then 1 else 0) = s.taken l' := by
  cases l with
  | rwlock =>
      have hcall : DB.rwlock_unlock s = .ok u s' := h
      obtain ⟨m, hm, rfl⟩ := Option.map_eq_some_iff.mp (relinquish_ok hcall)
      obtain ⟨h0, h1⟩ := Mutex.unlock_some hm
      refine ⟨⟨rfl, rfl, rfl⟩, fun l' => ?_⟩
      cases l' <;> simp [State.taken, h0, h1]
  | metalock =>
      have hcall : DB.metalock_unlock s = .ok u s' := h
      obtain ⟨m, hm, rfl⟩ := Option.map_eq_some_iff.mp (relinquish_ok hcall)
      obtain ⟨h0, h1⟩ := Mutex.unlock_some hm
      refine ⟨⟨rfl, rfl, rfl⟩, fun l' => ?_⟩
      cases l' <;> simp [State.taken, h0, h1]
  | mmaplock =>
      have hcall : DB.mmaplock_unlock_shared s = .ok u s' := h
      obtain ⟨m, hm, rfl⟩ := Option.map_eq_some_iff.mp (relinquish_ok hcall)
      rw [SharedMutex.unlock_shared] at hm
      split at hm
      · rename_i hpos
        cases hm
        refine ⟨⟨rfl, rfl, rfl⟩, fun l' => ?_⟩
        cases l' <;> simp [State.taken]
        omega
      · cases hm
  | statlock =>
      have hcall : DB.statlock_unlock s = .ok u s' := h
      obtain ⟨m, hm, rfl⟩ := Option.map_eq_some_iff.mp (relinquish_ok hcall)
      rw [SharedMutex.unlock] at hm
      split at hm
      · rename_i hex
        cases hm
        refine ⟨⟨rfl, rfl, rfl⟩, fun l' => ?_⟩
        cases l' <;> simp [State.taken, hex]
      · cases hm

/-- A lock that is held can be given back. -/
theorem give_of_taken (h : 0 < s.taken l) : ∃ s', l.give s = .ok () s' := by
  obtain ⟨⟨db, opened, readOnly, pageSize, dataSz, rwtx, txs, freelist, stats, pool, ⟨rw⟩,
    ⟨md⟩, ⟨mx, ms⟩, ⟨sx, ss⟩⟩, heap⟩ := s
  cases l with
  | rwlock =>
      cases rw
      · cases h
      · exact ⟨_, rfl⟩
  | metalock =>
      cases md
      · cases h
      · exact ⟨_, rfl⟩
  | mmaplock =>
      obtain ⟨n, rfl⟩ := Nat.exists_eq_add_one.mpr h
      exact ⟨_, rfl⟩
  | statlock =>
      cases sx
      · cases h
      · exact ⟨_, rfl⟩

/-- A lock that nobody holds can be taken, and one that is taken shared can be
taken anyway; else one waits. -/
theorem take_or_blocked (hmmap : s.mmaplock_.exclusive = false) (hstat : s.statlock_.shared = 0)
    (l : Lock) :
    (∃ s', l.take s = .ok () s') ∨
      l ≠ .mmaplock ∧ 0 < s.taken l ∧ l.take s = .error .blocked s := by
  obtain ⟨⟨db, opened, readOnly, pageSize, dataSz, rwtx, txs, freelist, stats, pool, ⟨rw⟩,
    ⟨md⟩, ⟨mx, ms⟩, ⟨sx, ss⟩⟩, heap⟩ := s
  obtain rfl : mx = false := hmmap
  obtain rfl : ss = 0 := hstat
  cases l with
  | rwlock =>
      cases rw
      · exact Or.inl ⟨_, rfl⟩
      · exact Or.inr ⟨(fun h => by cases h), Nat.one_pos, rfl⟩
  | metalock =>
      cases md
      · exact Or.inl ⟨_, rfl⟩
      · exact Or.inr ⟨(fun h => by cases h), Nat.one_pos, rfl⟩
  | mmaplock => exact Or.inl ⟨_, rfl⟩
  | statlock =>
      cases sx
      · exact Or.inl ⟨_, rfl⟩
      · exact Or.inr ⟨(fun h => by cases h), Nat.one_pos, rfl⟩

/-- The call stays with its transaction, or leaves it. -/
structure Pc.Next (pc pc' : Pc) : Prop where
  tx : pc'.tx = pc.tx ∨ pc'.tx = none
  closing : pc'.closing = pc.closing
  rolls : pc'.rolls = none

/-- A line that changes a lock and nothing else. -/
structure Pc.Onward (pc pc' : Pc) : Prop extends pc.Next pc' where
  counting : pc'.counting = pc.counting
  merging : pc'.merging = pc.merging
  willing : pc'.willing = pc.willing
  commits : ∀ s, pc.commits s = []
  outcome : pc'.outcome = pc.outcome
  left : pc'.left < pc.left

/-- **A line that takes a lock.** -/
theorem Pc.line_of_wants (inplace_merge : Merge Pgid) {pc : Pc} (h : pc.wants = some l) :
    ∃ pc', pc.line inplace_merge = (do l.take; pure pc') ∧ pc.Onward pc' ∧
      ∀ l', pc'.holds l' = pc.holds l' + if l' = l then 1 else 0 := by
  cases pc <;> cases h <;>
    exact ⟨_, rfl, ⟨⟨Or.inl rfl, rfl, rfl⟩, rfl, rfl, rfl, fun _ => rfl, rfl, by simp [Pc.left]⟩,
      fun l' => by cases l' <;> rfl⟩

/-- **A line that gives a lock back.** -/
theorem Pc.line_of_gives (inplace_merge : Merge Pgid) {pc : Pc} (h : pc.gives = some l) :
    ∃ pc', pc.line inplace_merge = (do l.give; pure pc') ∧ pc.Onward pc' ∧
      ∀ l', pc'.holds l' + (if l' = l then 1 else 0) = pc.holds l' := by
  cases pc <;> cases h <;>
    refine ⟨_, rfl, ⟨⟨?_, rfl, rfl⟩, rfl, rfl, rfl, fun _ => rfl, rfl, by simp [Pc.left]⟩,
      fun l' => by cases l' <;> rfl⟩ <;>
    first
      | exact Or.inl rfl
      | exact Or.inr rfl

end BoltCpp
