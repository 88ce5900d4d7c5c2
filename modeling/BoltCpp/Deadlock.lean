/-
BoltCpp/Deadlock.lean

The threads do not lock each other out.

Locks are taken in one order, `rwlock_`, `metalock_`, `mmaplock_`, `statlock_`
(`order_of_waits`), so somebody can always go on, but for one thing: a writer
keeps `rwlock_` until it is rolled back.  `never_stuck` says that this is all:
no line fails, every line brings its call nearer to its end, and when nobody
can go on, the calls under way wait for a writer that nobody is closing.
-/
import BoltCpp.Linearizable

namespace BoltCpp

open Crowd Locks RangeMerge

variable {inplace_merge : Merge Pgid} {s : State} {a : State} {c : Threads} {i : Nat}
  {pc : Pc} {l l' : Lock}

/-- The order in which locks are taken. -/
def Lock.rank : Lock → Nat
  | rwlock => 0
  | metalock => 1
  | mmaplock => 2
  | statlock => 3

/-- **Locks are taken in one order.** -/
theorem order_of_waits (hholds : 0 < pc.holds l) (hwants : pc.wants = some l') :
    l.rank < l'.rank := by
  cases pc <;> cases hwants <;> cases l <;>
    first
      | (cases hholds; done)
      | exact Nat.lt_of_sub_pos Nat.one_pos

theorem not_idle_of_holds (h : 0 < pc.holds l) : pc.isIdle = false := by
  cases pc <;> first | rfl | cases h

/-! ### The writer behind the lock -/

/-- The writer lock is kept by an open writer. -/
def Kept (s : State) : Prop := s.rwlock_.held = true → ∃ t, s.Open true t

theorem kept_step (hi : Inv s) (hk : Kept s) (e : Event) : Kept (step inplace_merge s e) := by
  have hdid := step_did inplace_merge hi e
  generalize step inplace_merge s e = s' at hdid
  cases hdid with
  | nothing => exact hk
  | reader =>
      intro hheld
      obtain ⟨t, ho⟩ := hk hheld
      exact ⟨t, (open_append rfl).mpr (Or.inl ho)⟩
  | writer =>
      intro _
      exact ⟨s.heap.length, (open_append rfl).mpr
        (Or.inr ⟨rfl, (isOpen_construct _ _).mpr rfl⟩)⟩
  | @closedReader snapshot t tx ht _ ho =>
      intro hheld
      obtain ⟨t', ho'⟩ := hk hheld
      refine ⟨t', (open_set rfl).mpr ⟨?_, ho'⟩⟩
      rintro rfl
      -- a reader is no writer
      obtain ⟨tx', ht', hw⟩ := ho'
      obtain rfl := Option.some.inj (ht.symm.trans ht')
      cases ho.kind.symm.trans hw.kind
  | closedWriter => exact fun hheld => by cases hheld
  | freed => exact hk

theorem kept_run (events : List Event) (hi : Inv s) (hk : Kept s) :
    Kept (run inplace_merge s events) :=
  (Runs.invariant (I := fun s => Inv s ∧ Kept s)
    (fun _ e h => ⟨inv_step h.1 e, kept_step h.1 h.2 e⟩) events ⟨hi, hk⟩).2

/-! ### Somebody can go on -/

/-- No line can be taken. -/
def Threads.Stuck (inplace_merge : Merge Pgid) (c : Threads) : Prop :=
  ∀ i, c.step inplace_merge (.line i) = c

/-- A line that is taken brings the call nearer to its end. -/
theorem left_of_advances (hi : c.pcs[i]? = some pc) (h : Advances inplace_merge a c i pc) :
    total Pc.left (c.step inplace_merge (.line i)).pcs < total Pc.left c.pcs := by
  obtain ⟨pc', s', hline, -, hleft, -⟩ := h
  have hset := total_set Pc.left hi pc'
  rw [Threads.step]
  simp only [hi, hline]
  show total Pc.left (c.pcs.set i pc') < total Pc.left c.pcs
  omega

theorem step_of_not_advances (h : Sim a c) (hi : c.pcs[i]? = some pc)
    (hno : ¬ Advances inplace_merge a c i pc) : c.step inplace_merge (.line i) = c := by
  rw [Threads.step]
  simp only [hi]
  rcases line_cases inplace_merge h hi with hidle | hadv | ⟨l, hwait⟩
  · cases pc <;> cases hidle
    rfl
  · exact absurd hadv hno
  · rw [hwait.line]

/-- Locks that no call holds are free, but for the writer's. -/
theorem Sim.rwlock_of_taken (h : Sim a c) (hne : l ≠ .mmaplock) (htaken : 0 < c.shared.taken l)
    (hno : ∀ pc ∈ c.pcs, ¬ 0 < pc.holds l) : l = .rwlock ∧ a.rwlock_.held = true := by
  have hzero : total (fun pc : Pc => pc.holds l) c.pcs = 0 :=
    total_eq_zero fun pc hmem => Nat.eq_zero_of_not_pos (hno pc hmem)
  have hlocks := h.locks l
  rw [hzero] at hlocks
  cases l with
  | rwlock =>
      refine ⟨rfl, ?_⟩
      have : a.taken .rwlock = a.rwlock_.held.toNat := rfl
      rcases hheld : a.rwlock_.held with - | -
      · rw [this, hheld] at hlocks
        rw [hlocks] at htaken
        cases htaken
      · rfl
  | metalock =>
      have : a.taken .metalock = 0 := congrArg (fun l : Mutex => l.held.toNat) h.inv.metalock
      omega
  | mmaplock => exact absurd rfl hne
  | statlock =>
      have : a.taken .statlock = 0 :=
        congrArg (fun l : SharedMutex => l.exclusive.toNat) h.inv.statlock
      omega

/-- **When nobody can go on, the calls under way wait for the writer.** -/
theorem Sim.waits_of_stuck (h : Sim a c) (hstuck : c.Stuck inplace_merge) (hmem : pc ∈ c.pcs)
    (hidle : pc.isIdle = false) : pc.wants = some .rwlock ∧ a.rwlock_.held = true := by
  have hwaits : ∀ pc ∈ c.pcs, pc.isIdle = false → ∃ l, Waits inplace_merge c.shared pc l := by
    intro pc hmem hidle
    obtain ⟨i, hi⟩ := List.mem_iff_getElem?.mp hmem
    rcases line_cases inplace_merge h hi with hyes | hadv | hwait
    · rw [hyes] at hidle
      cases hidle
    · have hlt := left_of_advances hi hadv
      rw [hstuck i] at hlt
      exact absurd hlt (Nat.lt_irrefl _)
    · exact hwait
  have hrank : ∀ l : Lock, l.rank ≤ 3 := fun l => by cases l <;> decide
  obtain ⟨pc₁, hwho, hfree⟩ := exists_moving
    (fun pc l => pc ∈ c.pcs ∧ Waits inplace_merge c.shared pc l)
    (fun pc l => pc ∈ c.pcs ∧ 0 < pc.holds l) Lock.rank hrank
    (fun _ _ _ hholds hwait => order_of_waits hholds.2 hwait.2.wants) pc
  have hmem₁ : pc₁ ∈ c.pcs := by
    rcases hwho with rfl | ⟨l, hmem₁, -⟩
    · exact hmem
    · exact hmem₁
  have hidle₁ : pc₁.isIdle = false := by
    rcases hwho with rfl | ⟨l, -, hholds⟩
    · exact hidle
    · exact not_idle_of_holds hholds
  obtain ⟨l, hwait⟩ := hwaits pc₁ hmem₁ hidle₁
  obtain ⟨rfl, hheld⟩ := h.rwlock_of_taken hwait.ne hwait.taken fun pc hmem hholds =>
    hfree l ⟨hmem₁, hwait⟩ pc ⟨hmem, hholds⟩
  refine ⟨?_, hheld⟩
  rcases hwho with rfl | ⟨l, -, hholds⟩
  · exact hwait.wants
  · -- who waits for the writer lock holds none
    exact absurd (order_of_waits hholds hwait.wants) (Nat.not_lt_zero _)

/-- A call that waits for the writer lock is about no transaction yet. -/
theorem bare_of_wants (h : pc.wants = some .rwlock) : pc.tx = none ∧ pc.closing = none := by
  cases pc <;> cases h
  exact ⟨rfl, rfl⟩

theorem bare_of_idle (h : pc.isIdle = true) : pc.tx = none ∧ pc.closing = none := by
  cases pc <;> cases h
  exact ⟨rfl, rfl⟩

/-- A lock that a call gives back is one that it holds. -/
theorem holds_of_gives (h : pc.gives = some l) : pc.holds l = 1 := by
  cases pc <;> cases h <;> rfl

/-- Who closes a writer is the thread that has begun it. -/
theorem Sim.owner_of_closing (h : Sim a c) {k : Closing} (hi : c.pcs[i]? = some pc)
    (hk : pc.closing = some k) : c.owner k.t = i := by
  have hsim := h.closing pc (List.mem_of_getElem? hi) k hk
  exact h.owned i pc k.t k.tx hi (Pc.tx_of_closing hk) hsim.here hsim.writable

/-- **The threads do not lock each other out.**  In every state that any run
of any number of threads leads to: a line is taken or waits for a lock, and
never fails; a line gives back a lock that its call holds, and `rwlock_` of a
writer is given back by the thread that has begun the writer; a line that is
taken brings its call nearer to its end; and when no line can be taken, every
call under way is a `begin(true)` that waits for `rwlock_`, which the open
writer `rwtx_` holds that no call is about. -/
theorem never_stuck (h₀ : Fresh s) (n : Nat) (moves : List Move) :
    let c := Threads.run inplace_merge (.initial s n) moves
    (∀ pc ∈ c.pcs, pc.isIdle = false →
      (∃ pc' s', pc.line inplace_merge c.shared = .ok pc' s') ∨
        pc.line inplace_merge c.shared = .error .blocked c.shared) ∧
    (∀ i pc l, c.pcs[i]? = some pc → pc.gives = some l → pc.holds l = 1 ∧
      ∀ k, pc = .closeUnlock k → c.owner k.t = i) ∧
    (∀ i, c.step inplace_merge (.line i) = c ∨
      total Pc.left (c.step inplace_merge (.line i)).pcs < total Pc.left c.pcs) ∧
    (c.Stuck inplace_merge → ∀ pc ∈ c.pcs, pc.isIdle = false →
      pc.wants = some .rwlock ∧ ∃ t, c.shared.rwtx_ = some t ∧ c.shared.Open true t ∧
        ∀ pc ∈ c.pcs, pc.tx ≠ some t) := by
  intro c
  obtain ⟨a, h, hkept⟩ : ∃ a, Sim a c ∧ Kept a := by
    refine ⟨_, sim_run moves (sim_initial h₀ n), kept_run _ h₀.inv fun hheld => ?_⟩
    rw [h₀.rwlock] at hheld
    cases hheld
  refine ⟨fun pc hmem hidle => ?_, fun i pc l hi hgives => ⟨?_, ?_⟩, fun i => ?_,
    fun hstuck pc hmem hidle => ?_⟩
  · obtain ⟨i, hi⟩ := List.mem_iff_getElem?.mp hmem
    rcases line_cases inplace_merge h hi with hyes | ⟨pc', s', hline, -⟩ | ⟨l, hwait⟩
    · rw [hyes] at hidle
      cases hidle
    · exact Or.inl ⟨pc', s', hline⟩
    · exact Or.inr hwait.line
  · exact holds_of_gives hgives
  · rintro k rfl
    exact h.owner_of_closing hi rfl
  · rcases hi : c.pcs[i]? with - | pc
    · refine Or.inl ?_
      rw [Threads.step]
      simp only [hi]
    · by_cases hadv : Advances inplace_merge a c i pc
      · exact Or.inr (left_of_advances hi hadv)
      · exact Or.inl (step_of_not_advances h hi hadv)
  · obtain ⟨hwants, hheld⟩ := h.waits_of_stuck hstuck hmem hidle
    obtain ⟨t, ho⟩ := hkept hheld
    have hbare : ∀ pc ∈ c.pcs, pc.tx = none ∧ pc.closing = none := by
      intro pc hmem
      rcases hpc : pc.isIdle with - | -
      · exact bare_of_wants (h.waits_of_stuck hstuck hmem hpc).1
      · exact bare_of_idle hpc
    refine ⟨hwants, t, h.agrees.rwtx.trans (h.inv.writer t ho).2, ?_, fun pc hmem ht => ?_⟩
    · obtain ⟨tx, hget, hopen⟩ := ho
      refine ⟨tx, (h.heap t fun pc hmem k hk => ?_).trans hget, hopen⟩
      rw [(hbare pc hmem).2] at hk
      cases hk
    · rw [(hbare pc hmem).1] at ht
      cases ht

/-- Two calls of `begin(true)`: the second one waits for the writer that the
first one returned. -/
def twoWriters : List Move :=
  [.start 0 (.begin true (sampleNewTx 3) fun _ => 0),
    .start 1 (.begin true (sampleNewTx 4) fun _ => 0),
    .line 0, .line 1, .line 0, .line 1, .line 0, .line 1, .line 0, .line 0]

theorem never_stuck_sample :
    let c := Threads.run merge (.initial (idleState .sample) 2) twoWriters
    c.pcs.map Pc.isIdle = [true, false] ∧ c.pcs.map Pc.wants = [none, some .rwlock] ∧
      ∃ t, c.shared.rwtx_ = some t ∧ c.shared.Open true t := by
  intro c
  have hstuck : c.Stuck merge := fun i => by
    match i with
    | 0 => rfl
    | 1 => rfl
    | i + 2 => rfl
  have hmem : Pc.writeLock (sampleNewTx 4) (fun _ => 0) ∈ c.pcs :=
    List.mem_of_getElem? (i := 1) rfl
  obtain ⟨-, t, ht, ho, -⟩ :=
    (never_stuck (fresh_idleState .sample) 2 twoWriters).2.2.2 hstuck _ hmem rfl
  exact ⟨rfl, rfl, t, ht, ho⟩

end BoltCpp
