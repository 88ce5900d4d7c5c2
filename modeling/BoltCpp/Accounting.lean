/-
BoltCpp/Accounting.lean

What the statistics of a database count.

`Booked` reads them off the transactions that exist: `tx_n` and `open_tx_n`
count the readers that were begun, closed or not, and `tx_stats` adds up what
the closed writers have done.  Every event keeps it, so it holds whenever the
threads on a database are between calls; and the difference of two snapshots
is about the transactions in between.
-/
import BoltCpp.Linearizable

namespace BoltCpp

open Crowd Locks RangeMerge

/-! ### What there is to count -/

namespace Transaction

/-- A reader counts as soon as it is begun. -/
def counted (tx : Transaction) : Nat := if tx.writable_ then 0 else 1

/-- What a writer has done counts once it is closed. -/
def merged (tx : Transaction) : TxStats := if tx.writable_ ∧ tx.db_ = none then tx.stats_ else 0

end Transaction

namespace State

/-- How many readers were begun. -/
def readers (s : State) : Nat := total Transaction.counted s.heap

/-- What the closed writers have done. -/
def work (s : State) : TxStats := total Transaction.merged s.heap

end State

/-- The statistics, after they were `b` when there was no transaction. -/
structure Booked (b : Stats) (s : State) : Prop where
  tx_n : s.stats_.tx_n = b.tx_n + s.readers
  open_tx_n : s.stats_.open_tx_n = if s.readers = 0 then b.open_tx_n else s.readers
  listed : s.txs_.length = s.readers
  tx_stats : s.stats_.tx_stats = b.tx_stats + s.work

variable {inplace_merge : Merge Pgid} {s : State} {b : Stats}

/-! ### Every event -/

theorem booked_withReader (h : Booked b s) (new : NewTx) : Booked b (s.withReader new) := by
  have hreaders : (s.withReader new).readers = s.readers + 1 :=
    total_concat Transaction.counted s.heap _
  have hwork : (s.withReader new).work = s.work :=
    (total_concat Transaction.merged s.heap _).trans (add_zero _)
  have hlisted : (s.withReader new).txs_.length = s.readers + 1 := by
    show (s.txs_ ++ [s.heap.length]).length = _
    rw [List.length_append, h.listed]
    rfl
  constructor
  · rw [hreaders]
    show s.stats_.tx_n + 1 = b.tx_n + ((s.readers + 1 : Nat) : Int)
    rw [h.tx_n]
    omega
  · rw [hreaders, if_neg (Nat.succ_ne_zero _), ← hlisted]
    rfl
  · rw [hreaders, hlisted]
  · rw [hwork]
    exact h.tx_stats

theorem booked_withWriter (h : Booked b s) (new : NewTx) (stale : TxPtr → Txid) :
    Booked b (s.withWriter inplace_merge new stale) := by
  have hreaders : (s.withWriter inplace_merge new stale).readers = s.readers :=
    total_concat Transaction.counted s.heap _
  have hmerged : (Tx.construct s.toDB true new).merged = 0 := if_neg fun hno => by cases hno.2
  have hwork : (s.withWriter inplace_merge new stale).work = s.work := by
    refine (total_concat Transaction.merged s.heap _).trans ?_
    rw [hmerged]
    exact add_zero _
  exact ⟨hreaders ▸ h.tx_n, hreaders ▸ h.open_tx_n, hreaders ▸ h.listed, hwork ▸ h.tx_stats⟩

/-- Closing a transaction does not change how many readers were begun. -/
theorem readers_close {s' : State} {t : TxPtr} {tx : Transaction} (ht : s.heap[t]? = some tx)
    (hs' : s'.heap = s.heap.set t tx.closed) : s'.readers = s.readers := by
  have hset := total_set Transaction.counted ht tx.closed
  have hsame : tx.closed.counted = tx.counted := rfl
  rw [State.readers, hs', State.readers]
  omega

theorem work_close {s' : State} {t : TxPtr} {tx : Transaction} {w : Bool}
    (ht : s.heap[t]? = some tx) (ho : tx.IsOpen w) (hs' : s'.heap = s.heap.set t tx.closed) :
    s'.work = s.work + if w then tx.stats_ else 0 := by
  have hset := total_set Transaction.merged ht tx.closed
  have hopen : tx.merged = 0 := if_neg fun hno => by
    have hdb := ho.db
    rw [hno.2] at hdb
    cases hdb
  have hclosed : tx.closed.merged = if w then tx.stats_ else 0 := by
    have hw : tx.closed.writable_ = w := ho.kind
    rw [Transaction.merged, hw]
    cases w
    · exact if_neg fun hno => by cases hno.1
    · exact if_pos ⟨rfl, rfl⟩
  rw [hopen, hclosed, add_zero] at hset
  rw [State.work, hs', hset]
  rfl

/-- **Every event keeps the books.** -/
theorem booked_step (hi : Inv s) (h : Booked b s) (e : Event) :
    Booked b (step inplace_merge s e) := by
  have hdid := step_did inplace_merge hi e
  generalize step inplace_merge s e = s' at hdid
  cases hdid with
  | nothing => exact h
  | reader => exact booked_withReader h _
  | writer => exact booked_withWriter h _ _
  | @closedReader snapshot t tx ht _ ho =>
      have hreaders : (s.withoutReader t tx).readers = s.readers := readers_close ht rfl
      have hwork : (s.withoutReader t tx).work = s.work := (work_close ht ho rfl).trans (add_zero _)
      exact ⟨hreaders ▸ h.tx_n, hreaders ▸ h.open_tx_n, hreaders ▸ h.listed, hwork ▸ h.tx_stats⟩
  | @closedWriter snapshot t tx ht _ ho =>
      have hreaders : (s.withoutWriter t tx).readers = s.readers := readers_close ht rfl
      have hwork : (s.withoutWriter t tx).work = s.work + tx.stats_ := work_close ht ho rfl
      refine ⟨hreaders ▸ h.tx_n, hreaders ▸ h.open_tx_n, hreaders ▸ h.listed, ?_⟩
      rw [hwork, ← add_assoc, ← h.tx_stats]
      rfl
  | freed => exact ⟨h.tx_n, h.open_tx_n, h.listed, h.tx_stats⟩

theorem booked_run (h₀ : Fresh s) (events : List Event) :
    Booked s.stats_ (run inplace_merge s events) := by
  have hfresh : Booked s.stats_ s := by
    have hreaders : s.readers = 0 := by rw [State.readers, h₀.heap, total_nil]
    have hwork : s.work = 0 := by rw [State.work, h₀.heap, total_nil]
    constructor
    · rw [hreaders]
      exact (Int.add_zero _).symm
    · rw [hreaders, if_pos rfl]
    · rw [hreaders, h₀.txs]
      rfl
    · rw [hwork, add_zero]
  exact (Runs.invariant (I := fun s' => Inv s' ∧ Booked s.stats_ s')
    (fun _ e hi => ⟨inv_step hi.1 e, booked_step hi.1 hi.2 e⟩) events ⟨h₀.inv, hfresh⟩).2

/-! ### Snapshots -/

theorem booked_of_finished (h₀ : Fresh s) (n : Nat) (moves : List Move)
    (hfin : (Threads.run inplace_merge (.initial s n) moves).Finished) :
    Booked s.stats_ (Threads.run inplace_merge (.initial s n) moves).shared := by
  rw [(sim_run moves (sim_initial h₀ n)).eq_of_finished hfin]
  exact booked_run h₀ _

/-- **The difference of two snapshots of the statistics.**  However the calls
of the threads were interleaved, whenever none is under way, `-` of the
statistics now and then counts the readers begun and the work of the writers
closed in between.  `open_tx_n` counts the readers ever begun, and adding the
snapshots again loses those of the earlier one in `tx_n`. -/
theorem stats_between (h₀ : Fresh s) (n : Nat) (moves moves' : List Move) :
    let c := Threads.run inplace_merge (.initial s n) moves
    let c' := c.run inplace_merge moves'
    c.Finished → c'.Finished →
      let d := c'.shared.stats_.sub c.shared.stats_
      d.tx_n = c'.shared.readers - c.shared.readers ∧
        d.tx_stats = c'.shared.work - c.shared.work ∧
        (0 < c'.shared.readers → d.open_tx_n = c'.shared.readers) ∧
        (d.add c.shared.stats_).tx_stats = c'.shared.stats_.tx_stats ∧
        (d.add c.shared.stats_).tx_n = c'.shared.stats_.tx_n - c.shared.stats_.tx_n := by
  intro c c' hfin hfin' d
  have h : Booked s.stats_ c.shared := booked_of_finished h₀ n moves hfin
  have hrun : c' = Threads.run inplace_merge (.initial s n) (moves ++ moves') :=
    (List.foldl_append ..).symm
  have h' : Booked s.stats_ c'.shared := by
    rw [hrun]
    exact booked_of_finished h₀ n (moves ++ moves') (hrun ▸ hfin')
  refine ⟨?_, ?_, fun hpos => ?_, ?_, ?_⟩
  · show c'.shared.stats_.tx_n - c.shared.stats_.tx_n = _
    rw [h'.tx_n, h.tx_n]
    omega
  · show c'.shared.stats_.tx_stats - c.shared.stats_.tx_stats = _
    rw [h'.tx_stats, h.tx_stats, add_sub_add_left_eq_sub]
  · show c'.shared.stats_.open_tx_n = _
    rw [h'.open_tx_n, if_neg (Nat.ne_of_gt hpos)]
  · rw [Stats.sub_add]
  · rw [Stats.sub_add]

/-- A thread begins a reader. -/
def oneReader (txid : Txid) : List Move :=
  .start 0 (.begin false (sampleNewTx txid) fun _ => 0) :: List.replicate 7 (.line 0)

/-- One reader was begun. -/
def onceRead : Threads := Threads.run merge (.initial (idleState .sample) 1) (oneReader 2)

/-- Two readers were begun. -/
def twiceRead : Threads := onceRead.run merge (oneReader 4)

theorem stats_between_sample :
    (twiceRead.shared.stats_.sub onceRead.shared.stats_).tx_n = 1 ∧
      twiceRead.shared.stats_.open_tx_n = 2 := by
  have hreaders : onceRead.shared.readers = 1 := by decide
  have hreaders' : twiceRead.shared.readers = 2 := by decide
  have hpcs : onceRead.pcs = [Pc.idle (.ok (some 0))] := rfl
  have hpcs' : twiceRead.pcs = [Pc.idle (.ok (some 1))] := rfl
  obtain ⟨htx_n, -, hopen, -⟩ := stats_between (fresh_idleState .sample) 1 (oneReader 2)
    (oneReader 4) (finished_of_pcs [.ok (some 0)] hpcs) (finished_of_pcs [.ok (some 1)] hpcs')
  have htx_n' : (twiceRead.shared.stats_.sub onceRead.shared.stats_).tx_n
      = twiceRead.shared.readers - onceRead.shared.readers := htx_n
  have hopen' : 0 < twiceRead.shared.readers →
      twiceRead.shared.stats_.open_tx_n = twiceRead.shared.readers := hopen
  rw [hreaders, hreaders'] at htx_n'
  rw [hreaders'] at hopen'
  exact ⟨htx_n', hopen' Nat.two_pos⟩

end BoltCpp
