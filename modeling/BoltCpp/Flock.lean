/-
BoltCpp/Flock.lean

Locking the database file (`DB::flock`).

The loop looks at the clock, calls `::flock` and sleeps, time and again.  What
the clock shows and what the calls answer is given (`Attempts`).

`AsDictated` is how such a loop should end: it returns with the lock, waits
while somebody else has it, throws on any other error, and gives up once the
timeout has passed.  The loop has the condition the wrong way round.  It throws
when somebody else has the lock and goes on in all other cases, with the lock
as well as without, and nothing in it returns (`not_flockEnds_ok`).
-/
import BoltCpp.Readers

namespace BoltCpp

/-! ### The loop -/

/-- Operations of `::flock` -/
inductive LockFlag where
  | LOCK_SH
  | LOCK_EX
  deriving DecidableEq, Repr

/-- What `::flock` answers: 0, or -1 with `errno`. -/
inductive Attempt where
  | locked
  | error (errno : Nat)
  deriving DecidableEq, Repr

def EWOULDBLOCK : Nat := 11

/-- What `DB::flock` throws. -/
inductive FlockError where
  /-- `std::runtime_error("flock timeout")` -/
  | timeout
  /-- `std::runtime_error`, "fail to flock:" and the text for `errno` -/
  | failed (errno : Nat)
  deriving DecidableEq, Repr

/-- What a call of `DB::flock` meets: the steady clock, in nanoseconds, when it
starts and at every pass of the loop, and the answers of `::flock`. -/
structure Attempts where
  start : Nat
  now : Nat → Nat
  flock : Nat → LockFlag → Attempt
  start_le : start ≤ now 0
  now_le : ∀ k, now k ≤ now (k + 1)

namespace Attempts

/-- `diff.count()` in pass `k` -/
def diff (env : Attempts) (k : Nat) : Nat := (env.now k - env.start) / 1000000

/-- In pass `k` the timeout has passed. -/
def TimedOut (env : Attempts) (timeout : Int) (k : Nat) : Prop :=
  timeout > 0 ∧ env.diff k > timeout

instance (env : Attempts) (timeout : Int) (k : Nat) : Decidable (env.TimedOut timeout k) :=
  inferInstanceAs (Decidable (_ ∧ _))

end Attempts

namespace DB

/-- The operation, by how the database was opened. -/
def lockFlag (db : Database) : LockFlag := if !db.read_only_ then .LOCK_EX else .LOCK_SH

/-- Pass `k` of the loop, up to the sleep; nothing is left to do if it throws. -/
def flockPass (db : Database) (env : Attempts) (timeout : Int) (k : Nat) :
    Except (FlockError × Nat) Unit :=
  if env.TimedOut timeout k then throw (.timeout, k)
  else if env.flock k (lockFlag db) = .error EWOULDBLOCK then throw (.failed EWOULDBLOCK, k + 1)
  else pure ()

/-- The loop from pass `k` on: how it ends and after how many attempts, or
nothing if it does not within `fuel` passes. -/
def flockLoop (db : Database) (env : Attempts) (timeout : Int) :
    Nat → Nat → Option (Except FlockError Unit × Nat)
  | 0, _ => none
  | fuel + 1, k =>
      match flockPass db env timeout k with
      | .error (e, attempts) => some (.error e, attempts)
      | .ok () => flockLoop db env timeout fuel (k + 1)

def flock (db : Database) (env : Attempts) (timeout : Int) (fuel : Nat) :
    Option (Except FlockError Unit × Nat) :=
  flockLoop db env timeout fuel 0

/-- The call ends in this way, after so many attempts. -/
def FlockEnds (db : Database) (env : Attempts) (timeout : Int) (r : Except FlockError Unit)
    (attempts : Nat) : Prop :=
  ∃ fuel, flock db env timeout fuel = some (r, attempts)

end DB

namespace Attempts

/-- So far the answer was `EWOULDBLOCK` each time, with the timeout ahead. -/
def Waited (env : Attempts) (timeout : Int) (flag : LockFlag) (n : Nat) : Prop :=
  ∀ k, k < n → ¬ env.TimedOut timeout k ∧ env.flock k flag = .error EWOULDBLOCK

end Attempts

/-- How the attempts should end a call. -/
structure AsDictated (db : Database) (env : Attempts) (timeout : Int) : Prop where
  /-- it returns with the first lock -/
  locked : ∀ n, env.Waited timeout (DB.lockFlag db) n → ¬ env.TimedOut timeout n →
    env.flock n (DB.lockFlag db) = .locked → DB.FlockEnds db env timeout (.ok ()) (n + 1)
  /-- it throws on the first error of another kind -/
  failed : ∀ n errno, env.Waited timeout (DB.lockFlag db) n → ¬ env.TimedOut timeout n →
    env.flock n (DB.lockFlag db) = .error errno → errno ≠ EWOULDBLOCK →
      DB.FlockEnds db env timeout (.error (.failed errno)) (n + 1)
  /-- it goes on only when somebody else has the lock -/
  retries : ∀ n, DB.flock db env timeout (n + 1) = none →
    env.flock n (DB.lockFlag db) = .error EWOULDBLOCK
  /-- and that ends it only together with the timeout -/
  contended : ∀ r n, DB.FlockEnds db env timeout r (n + 1) →
    env.flock n (DB.lockFlag db) = .error EWOULDBLOCK → r = .error .timeout
  /-- the timeout has passed when it says so, and it does not have the lock -/
  timeout : ∀ n, DB.FlockEnds db env timeout (.error .timeout) n →
    env.TimedOut timeout n ∧ ∀ k, k < n → env.flock k (DB.lockFlag db) ≠ .locked

/-! ### What the loop does -/

variable {db : Database} {env : Attempts} {timeout : Int}

/-- What one pass does. -/
theorem flockPass_eq (db : Database) (k : Nat) :
    (DB.flockPass db env timeout k = .ok () ∧ ¬ env.TimedOut timeout k ∧
        env.flock k (DB.lockFlag db) ≠ .error EWOULDBLOCK) ∨
      (DB.flockPass db env timeout k = .error (.timeout, k) ∧ env.TimedOut timeout k) ∨
      (DB.flockPass db env timeout k = .error (.failed EWOULDBLOCK, k + 1) ∧
        ¬ env.TimedOut timeout k ∧ env.flock k (DB.lockFlag db) = .error EWOULDBLOCK) := by
  by_cases htimeout : env.TimedOut timeout k
  · exact .inr (.inl ⟨by rw [DB.flockPass, if_pos htimeout]; rfl, htimeout⟩)
  by_cases hcontended : env.flock k (DB.lockFlag db) = .error EWOULDBLOCK
  · refine .inr (.inr ⟨?_, htimeout, hcontended⟩)
    rw [DB.flockPass, if_neg htimeout, if_pos hcontended]
    rfl
  · refine .inl ⟨?_, htimeout, hcontended⟩
    rw [DB.flockPass, if_neg htimeout, if_neg hcontended]
    rfl

/-- The loop is still going after `fuel` passes if it met neither the timeout
nor somebody else's lock in them. -/
theorem flockLoop_eq_none_iff (fuel k : Nat) :
    DB.flockLoop db env timeout fuel k = none ↔
      ∀ i, i < fuel → ¬ env.TimedOut timeout (k + i) ∧
        env.flock (k + i) (DB.lockFlag db) ≠ .error EWOULDBLOCK := by
  induction fuel generalizing k with
  | zero => simp [DB.flockLoop]
  | succ fuel ih =>
      have hfirst : (∀ i, i < fuel + 1 → ¬ env.TimedOut timeout (k + i) ∧
          env.flock (k + i) (DB.lockFlag db) ≠ .error EWOULDBLOCK) ↔
            (¬ env.TimedOut timeout k ∧ env.flock k (DB.lockFlag db) ≠ .error EWOULDBLOCK) ∧
              ∀ i, i < fuel → ¬ env.TimedOut timeout (k + 1 + i) ∧
                env.flock (k + 1 + i) (DB.lockFlag db) ≠ .error EWOULDBLOCK := by
        rw [Nat.forall_lt_succ_left]
        simp only [Nat.add_zero, Nat.add_assoc, Nat.add_comm 1]
      rw [hfirst, DB.flockLoop]
      rcases flockPass_eq db k with ⟨hpass, h⟩ | ⟨hpass, h⟩ | ⟨hpass, -, h⟩
      · rw [hpass, and_iff_right h]
        exact ih (k + 1)
      · simp [hpass, h]
      · simp [hpass, h]

theorem flock_eq_none_iff (fuel : Nat) :
    DB.flock db env timeout fuel = none ↔
      ∀ n, n < fuel → ¬ env.TimedOut timeout n ∧
        env.flock n (DB.lockFlag db) ≠ .error EWOULDBLOCK := by
  rw [DB.flock, flockLoop_eq_none_iff]
  simp only [Nat.zero_add]

/-- It never returns. -/
theorem flockLoop_ne_ok (fuel k attempts : Nat) :
    DB.flockLoop db env timeout fuel k ≠ some (.ok (), attempts) := by
  induction fuel generalizing k with
  | zero =>
      intro h
      cases h
  | succ fuel ih =>
      rw [DB.flockLoop]
      rcases flockPass_eq db k with ⟨hpass, -⟩ | ⟨hpass, -⟩ | ⟨hpass, -⟩
      · rw [hpass]
        exact ih (k + 1)
      · simp [hpass]
      · simp [hpass]

theorem not_flockEnds_ok (attempts : Nat) : ¬ DB.FlockEnds db env timeout (.ok ()) attempts :=
  fun ⟨fuel, h⟩ => flockLoop_ne_ok fuel 0 attempts h

/-- With the timeout behind it at once, it makes no attempt. -/
theorem flockEnds_of_timedOut (h : env.TimedOut timeout 0) {r : Except FlockError Unit}
    {attempts : Nat} :
    DB.FlockEnds db env timeout r attempts ↔ r = .error .timeout ∧ attempts = 0 := by
  have hpass : DB.flockPass db env timeout 0 = .error (.timeout, 0) := by
    rw [DB.flockPass, if_pos h]
    rfl
  have hflock : ∀ fuel, DB.flock db env timeout (fuel + 1) = some (.error .timeout, 0) := by
    intro fuel
    rw [DB.flock, DB.flockLoop, hpass]
  constructor
  · rintro ⟨fuel, hfuel⟩
    cases fuel with
    | zero => cases hfuel
    | succ fuel =>
        rw [hflock] at hfuel
        cases hfuel
        exact ⟨rfl, rfl⟩
  · rintro ⟨rfl, rfl⟩
    exact ⟨1, hflock 0⟩

/-- Somebody else's lock at the first attempt ends the call. -/
theorem flockEnds_of_contended (htimeout : ¬ env.TimedOut timeout 0)
    (h : env.flock 0 (DB.lockFlag db) = .error EWOULDBLOCK) :
    DB.FlockEnds db env timeout (.error (.failed EWOULDBLOCK)) 1 := by
  refine ⟨1, ?_⟩
  rw [DB.flock, DB.flockLoop, DB.flockPass, if_neg htimeout, if_pos h]
  rfl

/-- **When locking ends as its attempts dictate.**  The timeout must have
passed before the first attempt, so that there is none. -/
theorem asDictated_iff : AsDictated db env timeout ↔ env.TimedOut timeout 0 := by
  constructor
  · intro h
    by_contra htimeout
    -- any other answer than `EWOULDBLOCK` keeps the loop going
    have hcontended : env.flock 0 (DB.lockFlag db) = .error EWOULDBLOCK := by
      by_contra hother
      refine hother (h.retries 0 ((flock_eq_none_iff 1).mpr fun n hn => ?_))
      obtain rfl : n = 0 := by omega
      exact ⟨htimeout, hother⟩
    -- and `EWOULDBLOCK` ends it
    have hthrown := h.contended _ 0 (flockEnds_of_contended htimeout hcontended) hcontended
    cases hthrown
  · intro htimeout
    have hpassed : ∀ {n}, env.Waited timeout (DB.lockFlag db) n →
        ¬ env.TimedOut timeout n → False := by
      intro n hwaited hahead
      rcases Nat.eq_zero_or_pos n with rfl | hpos
      · exact hahead htimeout
      · exact (hwaited 0 hpos).1 htimeout
    refine ⟨?_, ?_, ?_, ?_, ?_⟩
    · exact fun n hwaited hahead _ => (hpassed hwaited hahead).elim
    · exact fun n errno hwaited hahead _ _ => (hpassed hwaited hahead).elim
    · intro n hnone
      exact absurd htimeout ((flock_eq_none_iff _).mp hnone 0 (Nat.succ_pos n)).1
    · intro r n hends _
      exact absurd ((flockEnds_of_timedOut htimeout).mp hends).2 (Nat.succ_ne_zero n)
    · intro n hends
      obtain ⟨-, rfl⟩ := (flockEnds_of_timedOut htimeout).mp hends
      exact ⟨htimeout, fun k hk => absurd hk (Nat.not_lt_zero k)⟩

/-- The clock stands still; nobody else has the lock. -/
def uncontended : Attempts where
  start := 0
  now _ := 0
  flock _ _ := .locked
  start_le := Nat.le_refl _
  now_le _ := Nat.le_refl _

/-- Somebody else has the lock at the first attempt only. -/
def contendedOnce : Attempts where
  start := 0
  now k := 50000000 * k
  flock k _ := if k = 0 then .error EWOULDBLOCK else .locked
  start_le := Nat.le_refl _
  now_le k := by omega

/-- With the default timeout the call has the lock and does not return; and
where it would get the lock at the second attempt it throws after the first. -/
theorem flock_hangs :
    (∀ fuel, DB.flock (idleState .sample).toDatabase uncontended 0 fuel = none) ∧
      ¬ AsDictated (idleState .sample).toDatabase uncontended 0 ∧
      DB.flock (idleState .sample).toDatabase contendedOnce 1000 1
        = some (.error (.failed EWOULDBLOCK), 1) ∧
      ¬ AsDictated (idleState .sample).toDatabase contendedOnce 1000 := by
  refine ⟨fun fuel => ?_, fun h => ?_, rfl, fun h => ?_⟩
  · refine (flock_eq_none_iff fuel).mpr fun n _ => ⟨?_, ?_⟩
    · rintro ⟨hpos, -⟩
      exact absurd hpos (by decide)
    · exact fun h => (by cases h)
  · exact absurd (asDictated_iff.mp h) (by decide)
  · exact absurd (asDictated_iff.mp h) (by decide)

end BoltCpp
