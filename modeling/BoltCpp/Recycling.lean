/-
BoltCpp/Recycling.lean

Readers keep their pages while other threads are at work.

A page that was freed by transaction `k` is pending under `k` until a
`begin(true)` releases it.  While a reader is open whose id is not above `k`
this does not happen, whatever the other threads do and however their lines
are interleaved: the page is lost exactly when the reader is rolled back, or
when the page is taken off the pending ones by hand.  Nor does a page become
free that no transaction before the reader has freed (`recycled_iff`).
-/
import BoltCpp.Races
import BoltCpp.Lib.Runs

namespace BoltCpp

open Crowd Locks RangeMerge

/-! ### An open reader -/

section

variable {inplace_merge : Merge Pgid} {a s s' : State} {c : Threads} {i : Nat} {pc pc' : Pc}
  {t : TxPtr} {tx : Transaction} {m : Meta} {k : Txid} {p : Pgid}

/-- What is being closed is a writer. -/
theorem Sim.ne_closing (h : Sim a c) (ht : c.shared.heap[t]? = some tx) (ho : tx.IsOpen false)
    (hmem : pc ∈ c.pcs) {k : Closing} (hk : pc.closing = some k) : k.t ≠ t := by
  rintro rfl
  have hk := h.closing pc hmem k hk
  obtain rfl := Option.some.inj (ht.symm.trans hk.here)
  cases ho.kind.symm.trans hk.writable

/-- An open reader is the same on both sides. -/
theorem Sim.reader_eq (h : Sim a c) (ht : c.shared.heap[t]? = some tx) (ho : tx.IsOpen false) :
    a.heap[t]? = some tx :=
  (h.heap t fun _ hmem _ hk => h.ne_closing ht ho hmem hk).symm.trans ht

/-- Nobody but a `rollback` of it changes an open reader. -/
theorem Sim.line_here (h : Sim a c) (ht : c.shared.heap[t]? = some tx) (ho : tx.IsOpen false)
    (hi : c.pcs[i]? = some pc) (hline : pc.line inplace_merge c.shared = .ok pc' s')
    (hpc : ∀ snapshot, pc ≠ .rollBody snapshot t) : s'.heap[t]? = some tx := by
  have hsame : SameField c.shared s' (.tx t) := by
    refine line_frame hline fun hw => ?_
    cases pc with
    | rollBody snapshot t' => exact hpc snapshot (congrArg _ hw.1.symm)
    | closeClear k => exact h.ne_closing ht ho (List.mem_of_getElem? hi) rfl hw.symm
    | _ => cases hw
  exact (hsame (List.getElem?_eq_some_iff.mp ht).1).trans ht

/-- What `begin(true)` does to the freelist: it releases nothing that an open
reader may see. -/
theorem Sim.freed_of_reader (hm : Permutes inplace_merge) (h : Sim a c)
    (ht : c.shared.heap[t]? = some tx) (ho : tx.IsOpen false) (hmeta : tx.meta_ = some m)
    (new : NewTx) (stale : TxPtr → Txid) :
    let freed := (c.shared.created new).freed inplace_merge stale
    (∀ e ∈ c.shared.freelist_.pending.entries, m.txid ≤ e.1 → e ∈ freed.pending.entries) ∧
      (∀ e ∈ freed.pending.entries, e ∈ c.shared.freelist_.pending.entries) ∧
      ∀ p ∈ freed.ids, p ∈ c.shared.freelist_.ids ∨
        ∃ e ∈ c.shared.freelist_.pending.entries, e.1 < m.txid ∧ p ∈ e.2 := by
  intro freed
  obtain ⟨hpending, hids⟩ := freed_spec hm a stale
  have hdue : ∀ {k}, m.txid ≤ k → ¬ a.Due stale k :=
    not_due_of_reader h.inv (h.reader_eq ht ho) ho hmeta stale
  have hfreed : freed = a.freed inplace_merge stale := h.freed_created new stale
  rw [hfreed, h.agrees.freelist]
  refine ⟨fun e hmem hk => ?_, fun e hmem => ?_, fun p hp => ?_⟩
  · rw [hpending, Pending.entries_under, List.mem_filter]
    exact ⟨hmem, by simpa using hdue hk⟩
  · rw [hpending, Pending.entries_under] at hmem
    exact List.mem_of_mem_filter hmem
  · rcases List.mem_append.mp (hids.mem_iff.mp hp) with hold | hnew
    · exact Or.inl hold
    · obtain ⟨e, hmem, hin⟩ := List.mem_flatMap.mp hnew
      obtain ⟨hmem, hdue'⟩ := List.mem_filter.mp hmem
      exact Or.inr ⟨e, hmem, not_le.mp fun hk => hdue hk (of_decide_eq_true hdue'), hin⟩

/-- A line leaves the freelist alone, or begins a writer. -/
theorem Sim.line_freelist (h : Sim a c) (hi : c.pcs[i]? = some pc)
    (hline : pc.line inplace_merge c.shared = .ok pc' s') :
    s'.freelist_ = c.shared.freelist_ ∨
      ∃ new stale, s'.freelist_ = (c.shared.created new).freed inplace_merge stale := by
  by_cases hw : pc.writes c.shared .freelist
  · cases pc with
    | writeBody new stale =>
        have hopened : c.shared.opened_ = false := hw
        rw [writeBody_eq, hopened] at hline
        cases hline
        exact Or.inr ⟨new, stale, rfl⟩
    | rollBody snapshot t' =>
        -- `FreeList::rollback` and `FreeList::reload` leave the list
        obtain ⟨tx', ht', ho'⟩ := hw
        obtain ⟨tx'', ht'', hm'⟩ := h.rolling _ (List.mem_of_getElem? hi) t' rfl
        obtain rfl := Option.some.inj (ht'.symm.trans ht'')
        have hsnap := h.inv.snapshot t' tx' ((h.here_eq hi rfl rfl).symm.trans ht') ho'.db
        cases (rollBody_writer ht' hm' ho' hsnap).symm.trans hline
        exact Or.inl rfl
    | _ => cases hw
  · exact Or.inl (line_frame hline hw)

/-- A `rollback` that is let go closes the reader. -/
theorem Sim.line_rollBody (h : Sim a c) (ht : c.shared.heap[t]? = some tx)
    (ho : tx.IsOpen false) {snapshot : Meta} (hi : c.pcs[i]? = some (.rollBody snapshot t)) :
    Pc.line inplace_merge (.rollBody snapshot t) c.shared
      = .ok (.idle (.ok none)) (c.shared.withoutReader t tx) := by
  obtain ⟨tx', ht', hm⟩ := h.rolling _ (List.mem_of_getElem? hi) t rfl
  obtain rfl := Option.some.inj (ht.symm.trans ht')
  exact rollBody_reader ht hm ho

/-! ### A property of the freelist, as long as a reader is open -/

/-- The reader `t` is as it was, and the freelist has the property. -/
structure Keeps (t : TxPtr) (tx : Transaction) (P : FreeList → Prop) (c : Threads) : Prop where
  here : c.shared.heap[t]? = some tx
  list : P c.shared.freelist_

/-- The move does not roll back `t`, and frees no page against the property. -/
def Move.Spares (t : TxPtr) (P : FreeList → Prop) (c : Threads) : Move → Prop
  | .start i (.free pending) =>
      c.MayCall i (.free pending) → P { c.shared.freelist_ with pending := pending }
  | .start _ _ => True
  | .line i => ∀ snapshot, c.pcs[i]? ≠ some (.rollBody snapshot t)

/-- The property stays when pages are released that no transaction from `k`
on has freed. -/
def KeptByRelease (k : Txid) (P : FreeList → Prop) : Prop :=
  ∀ f f' : FreeList, (∀ e ∈ f.pending.entries, k ≤ e.1 → e ∈ f'.pending.entries) →
    (∀ e ∈ f'.pending.entries, e ∈ f.pending.entries) →
    (∀ p ∈ f'.ids, p ∈ f.ids ∨ ∃ e ∈ f.pending.entries, e.1 < k ∧ p ∈ e.2) → P f → P f'

/-- **Which moves end it.** -/
theorem keeps_step_iff (hm : Permutes inplace_merge) {P : FreeList → Prop} (h : Sim a c)
    (hkeeps : Keeps t tx P c) (ho : tx.IsOpen false) (hmeta : tx.meta_ = some m)
    (hP : KeptByRelease m.txid P) (mv : Move) :
    Keeps t tx P (c.step inplace_merge mv) ↔ mv.Spares t P c := by
  cases mv with
  | start i e =>
      rw [Threads.step]
      by_cases hmay : c.MayCall i e
      · rw [if_pos hmay]
        cases e with
        | begin writable new stale =>
            cases writable <;> exact ⟨fun _ => trivial, fun _ => ⟨hkeeps.here, hkeeps.list⟩⟩
        | rollback snapshot t' => exact ⟨fun _ => trivial, fun _ => ⟨hkeeps.here, hkeeps.list⟩⟩
        | free pending => exact ⟨fun hnew _ => hnew.list, fun hs => ⟨hkeeps.here, hs hmay⟩⟩
      · rw [if_neg hmay]
        refine ⟨fun _ => ?_, fun _ => hkeeps⟩
        cases e with
        | begin => trivial
        | rollback => trivial
        | free pending => exact fun hyes => absurd hyes hmay
  | line i =>
      rw [Threads.step]
      rcases hi : c.pcs[i]? with - | pc
      · exact ⟨fun _ _ hno => (by cases hi.symm.trans hno), fun _ => hkeeps⟩
      have hspares : (Move.line i).Spares t P c ↔ ∀ snapshot, pc ≠ .rollBody snapshot t := by
        rw [Move.Spares, hi]
        exact forall_congr' fun snapshot => not_congr (Option.some.injEq _ _).to_iff
      rw [hspares]
      rcases hline : pc.line inplace_merge c.shared with ⟨pc', s'⟩ | ⟨stop, s'⟩
      · simp only [hline]
        constructor
        · rintro hnew snapshot rfl
          cases (h.line_rollBody hkeeps.here ho hi).symm.trans hline
          -- the reader is closed now
          have hlt := (List.getElem?_eq_some_iff.mp hkeeps.here).1
          have hclosed : tx.closed = tx := Option.some.inj
            ((List.getElem?_set_self hlt).symm.trans hnew.here)
          exact not_isOpen_closed (hclosed.symm ▸ ho)
        · refine fun hpc => ⟨h.line_here hkeeps.here ho hi hline hpc, ?_⟩
          show P s'.freelist_
          rcases h.line_freelist hi hline with hsame | ⟨new, stale, hfreed⟩
          · rw [hsame]
            exact hkeeps.list
          · obtain ⟨hkept, hold, hids⟩ := h.freed_of_reader hm hkeeps.here ho hmeta new stale
            rw [hfreed]
            exact hP _ _ hkept hold hids hkeeps.list
      · simp only [hline]
        refine ⟨?_, fun _ => hkeeps⟩
        rintro - snapshot rfl
        cases (h.line_rollBody hkeeps.here ho hi).symm.trans hline

/-- From there on. -/
theorem keeps_run_iff (hm : Permutes inplace_merge) {P : FreeList → Prop} (h : Sim a c)
    (hkeeps : Keeps t tx P c) (ho : tx.IsOpen false) (hmeta : tx.meta_ = some m)
    (hP : KeptByRelease m.txid P) (moves : List Move) :
    Runs.Always (Threads.step inplace_merge) (Keeps t tx P) c moves ↔
      Runs.Meets (Threads.step inplace_merge) (Move.Spares t P) c moves :=
  Runs.always_iff (I := fun c => ∃ a, Sim a c)
    (fun _ mv hsim => hsim.elim fun _ h => ⟨_, sim_step inplace_merge h mv⟩)
    (fun _ mv hsim hkeeps => hsim.elim fun _ h => keeps_step_iff hm h hkeeps ho hmeta hP mv)
    moves ⟨a, h⟩ hkeeps

/-! ### Pages of a reader -/

/-- Page `p` was freed by transaction `k` and has not been released. -/
def FreeList.PendingUnder (k : Txid) (p : Pgid) (f : FreeList) : Prop :=
  ∃ e ∈ f.pending.entries, e.1 = k ∧ p ∈ e.2

/-- Page `p` is not free, and no transaction before `k` has freed it. -/
structure FreeList.Unfreed (k : Txid) (p : Pgid) (f : FreeList) : Prop where
  ids : p ∉ f.ids
  pending : ∀ e ∈ f.pending.entries, p ∈ e.2 → k ≤ e.1

theorem pendingUnder_kept (hk : m.txid ≤ k) (p : Pgid) :
    KeptByRelease m.txid (FreeList.PendingUnder k p) := by
  rintro f f' hkept - - ⟨e, hmem, rfl, hin⟩
  exact ⟨e, hkept e hmem hk, rfl, hin⟩

theorem unfreed_kept (k : Txid) (p : Pgid) : KeptByRelease k (FreeList.Unfreed k p) := by
  intro f f' _ hold hids h
  refine ⟨fun hp => ?_, fun e hmem hin => h.pending e (hold e hmem) hin⟩
  rcases hids p hp with hfree | ⟨e, hmem, hlt, hin⟩
  · exact h.ids hfree
  · exact absurd (h.pending e hmem hin) (not_le.mpr hlt)

/-- **No page is recycled under a reader, in any interleaving.**  Whatever any
number of threads have done, let `t` be an open reader.  A page that is pending
under the id of the reader or a later one stays so, and a page that is not free
and was not freed before the reader stays so, from here on, move after move,
exactly as long as no thread takes the line that closes `t`, and no `free` says
otherwise.  In particular no `begin(true)` of another thread releases such a
page, wherever its lines fall. -/
theorem recycled_iff (hm : Permutes inplace_merge) (h₀ : Fresh s) (n : Nat) (moves : List Move) :
    let c := Threads.run inplace_merge (.initial s n) moves
    c.shared.heap[t]? = some tx → tx.IsOpen false → tx.meta_ = some m → ∀ p moves',
      (∀ k, m.txid ≤ k → c.shared.freelist_.PendingUnder k p →
        (Runs.Always (Threads.step inplace_merge) (Keeps t tx (FreeList.PendingUnder k p)) c
            moves' ↔
          Runs.Meets (Threads.step inplace_merge) (Move.Spares t (FreeList.PendingUnder k p)) c
            moves')) ∧
      (c.shared.freelist_.Unfreed m.txid p →
        (Runs.Always (Threads.step inplace_merge) (Keeps t tx (FreeList.Unfreed m.txid p)) c
            moves' ↔
          Runs.Meets (Threads.step inplace_merge) (Move.Spares t (FreeList.Unfreed m.txid p)) c
            moves')) := by
  intro c ht ho hmeta p moves'
  have h : Sim _ c := sim_run moves (sim_initial h₀ n)
  exact ⟨fun k hk hp => keeps_run_iff hm h ⟨ht, hp⟩ ho hmeta (pendingUnder_kept hk p) moves',
    fun hp => keeps_run_iff hm h ⟨ht, hp⟩ ho hmeta (unfreed_kept m.txid p) moves'⟩

end

/-- Thread 0 has begun a reader at 2. -/
def reading : Threads :=
  Threads.run merge (.initial (idleState .sample) 2)
    (.start 0 (.begin false (sampleNewTx 2) fun _ => 0) :: List.replicate 7 (.line 0))

/-- Thread 1 begins a writer. -/
def writing : List Move :=
  .start 1 (.begin true (sampleNewTx 3) fun _ => 0) :: List.replicate 5 (.line 1)

/-- Page 7 is released, page 4 is not, and page 9 has not become free. -/
theorem recycled_sample :
    (reading.run merge writing).shared.freelist_.pending.entries = [(2, [4])] ∧
      (reading.run merge writing).shared.freelist_.PendingUnder 2 4 ∧
      9 ∉ (reading.run merge writing).shared.freelist_.ids := by
  have hspares : ∀ P, Runs.Meets (Threads.step merge) (Move.Spares 0 P) reading writing := by
    intro P
    refine Runs.meets_cons.mpr ⟨trivial, ?_⟩
    iterate 5 refine Runs.meets_cons.mpr ⟨fun _ h => (by cases h), ?_⟩
    exact fun _ _ h => by cases h
  have hhere : reading.shared.heap[0]?
      = some (Tx.construct (idleState .sample).toDB false (sampleNewTx 2)) := rfl
  have hall := recycled_iff merge_merges.permutes (fresh_idleState .sample) 2
    (.start 0 (.begin false (sampleNewTx 2) fun _ => 0) :: List.replicate 7 (.line 0)) hhere
    ⟨rfl, rfl⟩ rfl
  have hpending : reading.shared.freelist_.PendingUnder 2 4 := ⟨(2, [4]), by decide, rfl, by decide⟩
  have hunfreed : reading.shared.freelist_.Unfreed 2 9 := ⟨by decide, by decide⟩
  have hkept := ((hall 4 writing).1 2 (UInt64.le_refl 2) hpending).mpr (hspares _) 6
  have hkept' := ((hall 9 writing).2 hunfreed).mpr (hspares _) 6
  exact ⟨rfl, hkept.list, hkept'.list.ids⟩

end BoltCpp
