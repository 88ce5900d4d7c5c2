/-
BoltCpp/Lib/Locks.lean

Locks as values.  An operation that would have to wait, or that gives back
what is not held, has no result; so a run that goes through has taken and
released every lock properly.
-/

namespace Locks

/-- A lock with one holder. -/
structure Mutex where
  held : Bool
  deriving DecidableEq, Repr

namespace Mutex

def lock (l : Mutex) : Option Mutex := if l.held then none else some ⟨true⟩

def unlock (l : Mutex) : Option Mutex := if l.held then some ⟨false⟩ else none

theorem lock_some {l l' : Mutex} (h : l.lock = some l') : l.held = false ∧ l'.held = true := by
  obtain ⟨held⟩ := l
  cases held <;> cases h
  exact ⟨rfl, rfl⟩

theorem unlock_some {l l' : Mutex} (h : l.unlock = some l') :
    l.held = true ∧ l'.held = false := by
  obtain ⟨held⟩ := l
  cases held <;> cases h
  exact ⟨rfl, rfl⟩

end Mutex

/-- A lock with one exclusive or several shared holds. -/
structure SharedMutex where
  exclusive : Bool
  shared : Nat
  deriving DecidableEq, Repr

namespace SharedMutex

/-- The lock nobody holds. -/
def free : SharedMutex := ⟨false, 0⟩

def lock (l : SharedMutex) : Option SharedMutex :=
  if l.exclusive || decide (0 < l.shared) then none else some ⟨true, 0⟩

def unlock (l : SharedMutex) : Option SharedMutex :=
  if l.exclusive then some ⟨false, l.shared⟩ else none

def lock_shared (l : SharedMutex) : Option SharedMutex :=
  if l.exclusive then none else some ⟨false, l.shared + 1⟩

def unlock_shared (l : SharedMutex) : Option SharedMutex :=
  if 0 < l.shared then some ⟨l.exclusive, l.shared - 1⟩ else none

/-- The lock can be had exclusively when there is no hold on it. -/
theorem isSome_lock_iff (l : SharedMutex) :
    l.lock.isSome = true ↔ l.exclusive = false ∧ l.shared = 0 := by
  obtain ⟨exclusive, shared⟩ := l
  cases exclusive
  · by_cases h : 0 < shared
    · simp [lock, h, Nat.ne_of_gt h]
    · simp [lock, Nat.eq_zero_of_not_pos h]
  · simp [lock]

end SharedMutex

end Locks
