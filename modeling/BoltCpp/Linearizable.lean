/-
BoltCpp/Linearizable.lean

The calls of threads are linearizable.

Every line that can be taken keeps `Sim`, with the call that takes effect made
on the other side (`Advances`); a line that cannot be taken waits for a lock
(`line_cases`).  `sim_step` puts the lines together, `sim_run` the moves of a
run, and `linearizable` says what this means for the calls.
-/
import BoltCpp.Readers
import BoltCpp.Simulation

namespace BoltCpp

open Crowd Locks RangeMerge

variable {inplace_merge : Merge Pgid} {s : State}

section

variable {a : State} {c : Threads} {i : Nat} {pc pc' : Pc}

/-! ### The lines between locks -/

/-- The next line is taken, and the calls that take effect with it are made on
the other side. -/
def Advances (inplace_merge : Merge Pgid) (a : State) (c : Threads) (i : Nat) (pc : Pc) : Prop :=
  ∃ pc' s', pc.line inplace_merge c.shared = .ok pc' s' ∧
    Sim (run inplace_merge a (pc.commits c.shared)) (c.took i s' pc') ∧
    pc'.left < pc.left ∧
    (∀ e ∈ pc.commits c.shared,
      ∃ r, pc'.outcome = some r ∧ e.outcome inplace_merge a = some r) ∧
    (pc.commits c.shared = [] → pc'.outcome = pc.outcome)

theorem Sim.taken_le (h : Sim a c) (hmem : pc ∈ c.pcs) (l : Lock) :
    a.taken l + pc.holds l ≤ c.shared.taken l := by
  have := h.locks l
  have hle : pc.holds l ≤ total (fun pc : Pc => pc.holds l) c.pcs :=
    le_total (f := fun pc : Pc => pc.holds l) hmem
  omega

/-- A listed transaction is a reader still when another one is created. -/
theorem Sim.reader_append (h : Sim a c) (new : Transaction) {t : TxPtr} (ht : t ∈ a.txs_) :
    ∃ tx, (a.heap ++ [new])[t]? = some tx ∧ tx.writable_ = false := by
  obtain ⟨tx, hget, hread⟩ := h.readers t ht
  refine ⟨tx, ?_, hread⟩
  exact (List.getElem?_append_left (List.getElem?_eq_some_iff.mp hget).1).trans hget

/-- A reader on both sides. -/
theorem Sim.readBody (h : Sim a c) {new : NewTx} (hi : c.pcs[i]? = some (.readBody new)) :
    Sim (a.withReader new)
      (c.took i (c.shared.listed new) (.readUnlock c.shared.heap.length)) := by
  have htx : Tx.construct c.shared.toDB false new = Tx.construct a.toDB false new := by
    rw [h.agrees.toDB]
  have hcounting : total Pc.counting (c.pcs.set i (.readUnlock c.shared.heap.length))
      = total Pc.counting c.pcs + 1 := total_set Pc.counting hi (.readUnlock c.shared.heap.length)
  have hmerging : total Pc.mergingStats (c.pcs.set i (.readUnlock c.shared.heap.length))
      = total Pc.mergingStats c.pcs := total_next hi rfl
  have hmerges : total Pc.merges (c.pcs.set i (.readUnlock c.shared.heap.length))
      = total Pc.merges c.pcs := total_next hi rfl
  refine h.append
    ⟨hi, rfl, congrArg (c.shared.heap ++ [·]) htx, rfl, rfl, rfl, rfl, rfl⟩ rfl
    (inv_withReader h.inv new) ?_ ?_ ?_ rfl rfl ?_
  · intro t ht
    rcases List.mem_append.mp ht with ht | ht
    · exact h.reader_append _ ht
    · obtain rfl := List.mem_singleton.mp ht
      exact ⟨_, List.getElem?_concat_length, rfl⟩
  · exact { h.agrees with
      txs := by
        show c.shared.txs_ ++ [c.shared.heap.length] = a.txs_ ++ [a.heap.length]
        rw [h.agrees.txs, h.length] }
  · intro l
    cases l
    case mmaplock =>
      show c.shared.mmaplock_.shared + a.mmaplock_.shared + 1
        = c.shared.mmaplock_.shared + (a.mmaplock_.shared + 1) + 0
      omega
    all_goals rfl
  · constructor
    · have htx_n := h.stats.tx_n
      show a.stats_.tx_n + 1 = c.shared.stats_.tx_n + _
      rw [hcounting]
      omega
    · intro hzero
      omega
    · exact fun _ => rfl
    · rw [hmerging]; exact h.stats.tx_stats
    · rw [hmerges]; exact h.stats.merged
    · rw [hmerges]; exact h.stats.merging

/-- **A reader is listed, or refused.** -/
theorem advances_readBody (h : Sim a c) {new : NewTx}
    (hi : c.pcs[i]? = some (.readBody new)) :
    Advances inplace_merge a c i (.readBody new) := by
  have hbegin : DB.begin inplace_merge false new (fun _ => 0) a
      = if a.opened_ then .error (.threw .databaseNotOpen) a
        else .ok a.heap.length (a.withReader new) := begin_tx_eq h.inv.toQuiet new
  have hline : Pc.line inplace_merge (.readBody new) c.shared = _ := readBody_eq
  rw [h.agrees.opened] at hline
  rcases ho : a.opened_ with - | -
  · rw [ho] at hline hbegin
    have hstep : run inplace_merge a (Pc.commits c.shared (.readBody new))
        = a.withReader new := congrArg stateAfter hbegin
    refine ⟨_, _, hline, ?_, by simp [Pc.left], ?_, fun hno => by cases hno⟩
    · rw [hstep]
      exact h.readBody hi
    · intro e he
      obtain rfl := List.mem_singleton.mp he
      refine ⟨_, rfl, ?_⟩
      rw [Event.outcome, hbegin, h.length]
      rfl
  · rw [ho] at hline hbegin
    have hstep : run inplace_merge a (Pc.commits c.shared (.readBody new)) = a :=
      congrArg stateAfter hbegin
    refine ⟨_, _, hline, ?_, by simp [Pc.left], ?_, fun hno => by cases hno⟩
    · rw [hstep]
      have hn : Pc.Next (.readBody new) .readRefuse := ⟨Or.inl rfl, rfl, rfl⟩
      exact h.next hi hn (fun hw => by cases hw) h.agrees rfl rfl rfl (fun l => by cases l <;> rfl)
        (h.stats.next hi rfl rfl)
    · intro e he
      obtain rfl := List.mem_singleton.mp he
      refine ⟨_, rfl, ?_⟩
      rw [Event.outcome, hbegin]
      rfl

/-- The writer lock is with the thread. -/
theorem Sim.rwlock_free (h : Sim a c) (hmem : pc ∈ c.pcs) (hpc : pc.holds .rwlock = 1) :
    a.rwlock_ = ⟨false⟩ := by
  have hle := h.taken_le hmem .rwlock
  have hone : c.shared.taken .rwlock ≤ 1 := Bool.toNat_le _
  have hzero : a.rwlock_.held.toNat = 0 := by
    have : a.taken .rwlock = a.rwlock_.held.toNat := rfl
    omega
  exact congrArg Mutex.mk (Bool.toNat_eq_zero.mp hzero)

/-- The same pages are released on both sides. -/
theorem Sim.freed_created (h : Sim a c) (new : NewTx) (stale : TxPtr → Txid) :
    (c.shared.created new).freed inplace_merge stale = a.freed inplace_merge stale := by
  refine freed_congr h.agrees.freelist h.agrees.txs fun t ht => ?_
  have hget := h.listed_eq ht
  obtain ⟨tx, hsome, -⟩ := h.readers t ht
  have hlt : t < c.shared.heap.length :=
    (List.getElem?_eq_some_iff.mp (hget.trans hsome)).1
  exact (List.getElem?_append_left hlt).trans hget

/-- A writer on both sides. -/
theorem Sim.writeBody (h : Sim a c) {new : NewTx} {stale : TxPtr → Txid}
    (hi : c.pcs[i]? = some (.writeBody new stale)) :
    Sim (a.withWriter inplace_merge new stale)
      (c.took i ((c.shared.created new).released inplace_merge stale)
        (.writeDone c.shared.heap.length)) := by
  have hfree := h.rwlock_free (List.mem_of_getElem? hi) rfl
  have htx : Tx.construct c.shared.toDB true new = Tx.construct a.toDB true new := by
    rw [h.agrees.toDB]
  refine h.append
    ⟨hi, rfl, congrArg (c.shared.heap ++ [·]) htx, rfl, rfl, rfl, rfl, rfl⟩ rfl
    (inv_withWriter h.inv hfree new stale) ?_ ?_ ?_ rfl rfl (h.stats.next hi rfl rfl)
  · exact fun t ht => h.reader_append _ ht
  · exact { h.agrees with
      rwtx := congrArg some h.length
      freelist := h.freed_created new stale }
  · intro l
    cases l
    case rwlock =>
      have hzero : a.taken .rwlock = 0 := congrArg (fun l : Mutex => l.held.toNat) hfree
      show c.shared.taken .rwlock + a.taken .rwlock + 1 = c.shared.taken .rwlock + 1 + 0
      omega
    all_goals rfl

/-- **A writer is created, or refused.** -/
theorem advances_writeBody (h : Sim a c) {new : NewTx} {stale : TxPtr → Txid}
    (hi : c.pcs[i]? = some (.writeBody new stale)) :
    Advances inplace_merge a c i (.writeBody new stale) := by
  have hmem := List.mem_of_getElem? hi
  have hread : a.read_only_ = false := h.willing _ hmem rfl
  have hheld : a.rwlock_.held = false := congrArg Mutex.held (h.rwlock_free hmem rfl)
  have hbegin : DB.begin inplace_merge true new stale a = _ :=
    begin_rwtx_eq h.inv.toQuiet new stale
  rw [hread, hheld] at hbegin
  have hline : Pc.line inplace_merge (.writeBody new stale) c.shared = _ := writeBody_eq
  rw [h.agrees.opened] at hline
  rcases ho : a.opened_ with - | -
  · rw [ho] at hline hbegin
    have hstep : run inplace_merge a (Pc.commits c.shared (.writeBody new stale))
        = a.withWriter inplace_merge new stale := congrArg stateAfter hbegin
    refine ⟨_, _, hline, ?_, by simp [Pc.left], ?_, fun hno => by cases hno⟩
    · rw [hstep]
      exact h.writeBody hi
    · intro e he
      obtain rfl := List.mem_singleton.mp he
      refine ⟨_, rfl, ?_⟩
      rw [Event.outcome, hbegin, h.length]
      rfl
  · rw [ho] at hline hbegin
    have hstep : run inplace_merge a (Pc.commits c.shared (.writeBody new stale)) = a :=
      congrArg stateAfter hbegin
    refine ⟨_, _, hline, ?_, by simp [Pc.left], ?_, fun hno => by cases hno⟩
    · rw [hstep]
      have hn : Pc.Next (.writeBody new stale) .writeRefuse := ⟨Or.inl rfl, rfl, rfl⟩
      exact h.next hi hn (fun hw => by cases hw) h.agrees rfl rfl rfl (fun l => by cases l <;> rfl)
        (h.stats.next hi rfl rfl)
    · intro e he
      obtain rfl := List.mem_singleton.mp he
      refine ⟨_, rfl, ?_⟩
      rw [Event.outcome, hbegin]
      rfl

/-- **The test of `begin(true)`** -/
theorem advances_writeTest (h : Sim a c) {new : NewTx} {stale : TxPtr → Txid}
    (hi : c.pcs[i]? = some (.writeTest new stale)) :
    Advances inplace_merge a c i (.writeTest new stale) := by
  have hline : Pc.line inplace_merge (.writeTest new stale) c.shared = _ := writeTest_eq
  have hbegin : DB.begin inplace_merge true new stale a = _ :=
    begin_rwtx_eq h.inv.toQuiet new stale
  rcases hr : c.shared.read_only_ with - | -
  · rw [hr] at hline
    have hnone : Pc.commits c.shared (.writeTest new stale) = [] := by
      rw [Pc.commits, hr]
      rfl
    have hn : Pc.Next (.writeTest new stale) (.writeLock new stale) := ⟨Or.inl rfl, rfl, rfl⟩
    refine ⟨_, _, hline, ?_, by simp [Pc.left], ?_, fun _ => rfl⟩
    · rw [hnone]
      exact h.next hi hn (fun _ => h.agrees.readOnly.symm.trans hr) h.agrees rfl rfl rfl
        (fun l => by cases l <;> rfl) (h.stats.next hi rfl rfl)
    · rw [hnone]
      exact fun e he => by cases he
  · rw [hr] at hline
    rw [← h.agrees.readOnly, hr] at hbegin
    have hone : Pc.commits c.shared (.writeTest new stale) = [.begin true new stale] := by
      rw [Pc.commits, hr]
      rfl
    have hn : Pc.Next (.writeTest new stale) (.idle (.error .databaseReadOnly)) :=
      ⟨Or.inl rfl, rfl, rfl⟩
    refine ⟨_, _, hline, ?_, by simp [Pc.left], ?_, fun hno => by rw [hone] at hno; cases hno⟩
    · have hstep : run inplace_merge a [.begin true new stale] = a :=
        congrArg stateAfter hbegin
      rw [hone, hstep]
      exact h.next hi hn (fun hw => by cases hw) h.agrees rfl rfl rfl
        (fun l => by cases l <;> rfl) (h.stats.next hi rfl rfl)
    · rw [hone]
      intro e he
      obtain rfl := List.mem_singleton.mp he
      refine ⟨_, rfl, ?_⟩
      rw [Event.outcome, hbegin]
      rfl

/-! #### `rollback` -/

/-- A transaction whose `rollback` has not begun to close it. -/
theorem Sim.here_eq (h : Sim a c) (hi : c.pcs[i]? = some pc) {t : TxPtr} (ht : pc.tx = some t)
    (hpc : pc.closing = none) : c.shared.heap[t]? = a.heap[t]? := by
  refine h.heap t fun pc₀ hmem k hk heq => ?_
  have hset : pc₀ ∈ c.pcs.set i (.idle (.ok none)) := by
    rcases mem_set_of_mem hi hmem (.idle (.ok none)) with rfl | hmem
    · rw [hpc] at hk
      cases hk
    · exact hmem
  rcases h.others hi ht hset with rfl | ⟨-, hother⟩
  · cases hk
  · exact hother (heq ▸ Pc.tx_of_closing hk)

/-- Closing a transaction that is not listed, or a reader. -/
theorem readers_set (h : ∀ t ∈ a.txs_, ∃ tx, a.heap[t]? = some tx ∧ tx.writable_ = false)
    {t : TxPtr} {tx : Transaction} (ht : a.heap[t]? = some tx) :
    ∀ t' ∈ a.txs_, ∃ tx', (a.heap.set t tx.closed)[t']? = some tx' ∧ tx'.writable_ = false := by
  intro t' ht'
  obtain ⟨tx', hget, hread⟩ := h t' ht'
  by_cases heq : t = t'
  · subst heq
    obtain rfl := Option.some.inj (ht.symm.trans hget)
    exact ⟨tx.closed, List.getElem?_set_self (List.getElem?_eq_some_iff.mp ht).1, hread⟩
  · exact ⟨tx', (List.getElem?_set_ne heq).trans hget, hread⟩

/-- A reader is closed on both sides. -/
theorem Sim.rollReader (h : Sim a c) {snapshot : Meta} {t : TxPtr} {tx : Transaction}
    (hi : c.pcs[i]? = some (.rollBody snapshot t)) (ht : a.heap[t]? = some tx) :
    Sim (a.withoutReader t tx)
      (c.took i (c.shared.withoutReader t tx) (.idle (.ok none))) :=
  h.touch
    ⟨hi, rfl, Or.inr rfl, rfl, rfl, (h.here_eq hi rfl rfl).trans ht, rfl, rfl, rfl,
      Or.inl ⟨rfl, rfl⟩⟩
    rfl (inv_withoutReader h.inv t tx) (readers_set h.readers ht) { h.agrees with } rfl rfl
    (fun l => by cases l <;> rfl) (h.stats.next hi rfl rfl)

/-- A writer is closed on one side, and about to be on the other. -/
theorem Sim.rollWriter (h : Sim a c) {snapshot : Meta} {t : TxPtr} {tx : Transaction}
    (hi : c.pcs[i]? = some (.rollBody snapshot t)) (ht : a.heap[t]? = some tx)
    (ho : tx.IsOpen true) :
    Sim (a.withoutWriter t tx)
      (c.took i { c.shared with rwtx_ := none } (.closeUnlock (.of t tx))) := by
  have hopen : a.Open true t := ⟨tx, ht, ho⟩
  have hheld : a.taken .rwlock = 1 :=
    congrArg (fun l : Mutex => l.held.toNat) (h.inv.writer t hopen).1
  have hhere : c.shared.heap[t]? = some tx := (h.here_eq hi rfl rfl).trans ht
  have hset : ({ c.shared with rwtx_ := none } : State).heap = c.shared.heap.set t tx := by
    obtain ⟨hlt, rfl⟩ := List.getElem?_eq_some_iff.mp hhere
    exact (List.set_getElem_self hlt).symm
  have hcounting : total Pc.counting (c.pcs.set i (.closeUnlock (.of t tx)))
      = total Pc.counting c.pcs := total_next hi rfl
  have hmerging : total Pc.mergingStats (c.pcs.set i (.closeUnlock (.of t tx))) + 0
      = total Pc.mergingStats c.pcs + tx.stats_ :=
    total_set Pc.mergingStats hi (.closeUnlock (.of t tx))
  have hmerges : total Pc.merges (c.pcs.set i (.closeUnlock (.of t tx)))
      = total Pc.merges c.pcs + 1 := total_set Pc.merges hi (.closeUnlock (.of t tx))
  have hthere : (a.withoutWriter t tx).heap = a.heap.set t tx.closed := rfl
  have hagrees : ({ c.shared with rwtx_ := none } : State).Agrees (a.withoutWriter t tx) :=
    { h.agrees with rwtx := rfl }
  have htx : (Pc.closeUnlock (.of t tx)).tx = (Pc.rollBody snapshot t).tx := rfl
  refine h.touch
    ⟨hi, rfl, Or.inl htx, rfl, rfl, hhere, hset, hthere, rfl, Or.inr ⟨rfl, ho.kind, rfl⟩⟩ rfl
    (inv_withoutWriter h.inv hopen tx) (readers_set h.readers ht) hagrees rfl rfl
    (fun l => ?_) ?_
  · cases l
    case rwlock =>
      show c.shared.taken .rwlock + a.taken .rwlock + 0 = c.shared.taken .rwlock + 0 + 1
      omega
    all_goals rfl
  · constructor
    · rw [hcounting]; exact h.stats.tx_n
    · rw [hcounting]; exact h.stats.open_tx_n
    · rw [hcounting]; exact h.stats.counting
    · rw [add_zero] at hmerging
      rw [hmerging, ← add_assoc, ← h.stats.tx_stats]
      rfl
    · intro hzero
      omega
    · exact fun _ => ⟨rfl, rfl, rfl, rfl⟩

/-- **`rollback` looks at its transaction.** -/
theorem advances_rollBody (h : Sim a c) {snapshot : Meta} {t : TxPtr}
    (hi : c.pcs[i]? = some (.rollBody snapshot t)) :
    Advances inplace_merge a c i (.rollBody snapshot t) := by
  obtain ⟨tx, hhere, hm⟩ := h.rolling _ (List.mem_of_getElem? hi) t rfl
  have ht : a.heap[t]? = some tx := (h.here_eq hi rfl rfl).symm.trans hhere
  have hsome : ∀ {r a'}, Tx.rollback snapshot t a = r → stateAfter r = a' →
      run inplace_merge a (Pc.commits c.shared (.rollBody snapshot t)) = a' :=
    fun hr ha => (congrArg stateAfter hr).trans ha
  rcases hdb : tx.db_ with - | db
  · have hcall := rollback_closed ht hm hdb snapshot
    have hn : Pc.Next (.rollBody snapshot t) (.idle (.error .txClosed)) := ⟨Or.inr rfl, rfl, rfl⟩
    refine ⟨_, _, rollBody_closed hhere hm hdb, ?_, by simp [Pc.left], ?_,
      fun hno => by cases hno⟩
    · rw [hsome hcall rfl]
      exact h.next hi hn (fun hw => by cases hw) h.agrees rfl rfl rfl (fun l => by cases l <;> rfl)
        (h.stats.next hi rfl rfl)
    · intro e he
      obtain rfl := List.mem_singleton.mp he
      refine ⟨_, rfl, ?_⟩
      rw [Event.outcome, hcall]
  have hopen : tx.db_.isSome = true := by rw [hdb]; rfl
  rcases hw : tx.writable_ with - | -
  · have hcall := rollback_reader ht hm ⟨hopen, hw⟩ snapshot
    refine ⟨_, _, rollBody_reader hhere hm ⟨hopen, hw⟩, ?_, by simp [Pc.left], ?_,
      fun hno => by cases hno⟩
    · rw [hsome hcall rfl]
      exact h.rollReader hi ht
    · intro e he
      obtain rfl := List.mem_singleton.mp he
      refine ⟨_, rfl, ?_⟩
      rw [Event.outcome, hcall]
  · have hmeta := h.inv.snapshot t tx ht hopen
    have hcall := rollback_writer ht hm ⟨hopen, hw⟩ hmeta (h.inv.writer t ⟨tx, ht, hopen, hw⟩).1
      h.inv.statlock snapshot
    refine ⟨_, _, rollBody_writer hhere hm ⟨hopen, hw⟩ hmeta, ?_, by simp [Pc.left], ?_,
      fun hno => by cases hno⟩
    · rw [hsome hcall rfl]
      exact h.rollWriter hi ht ⟨hopen, hw⟩
    · intro e he
      obtain rfl := List.mem_singleton.mp he
      refine ⟨_, rfl, ?_⟩
      rw [Event.outcome, hcall]

/-- **The references are cleared.** -/
theorem advances_closeClear (h : Sim a c) {k : Closing}
    (hi : c.pcs[i]? = some (.closeClear k)) : Advances inplace_merge a c i (.closeClear k) := by
  have hk := h.closing _ (List.mem_of_getElem? hi) k rfl
  refine ⟨.idle (.ok none), { c.shared with heap := c.shared.heap.set k.t k.tx.closed }, rfl, ?_,
    by simp [Pc.left], fun e he => (by cases he), fun _ => rfl⟩
  have hset : a.heap = a.heap.set k.t k.tx.closed := by
    obtain ⟨hlt, heq⟩ := List.getElem?_eq_some_iff.mp hk.there
    rw [← heq]
    exact (List.set_getElem_self hlt).symm
  exact h.touch
    ⟨hi, rfl, Or.inr rfl, rfl, rfl, hk.here, rfl, hset, rfl, Or.inl ⟨rfl, rfl⟩⟩ rfl h.inv
    h.readers { h.agrees with } rfl rfl (fun l => by cases l <;> rfl) (h.stats.next hi rfl rfl)

/-! #### Statistics -/

/-- **A reader is counted.** -/
theorem advances_readCount (h : Sim a c) {t : TxPtr} (hi : c.pcs[i]? = some (.readCount t)) :
    Advances inplace_merge a c i (.readCount t) := by
  have hn : Pc.Next (.readCount t) (.readDone t) := ⟨Or.inl rfl, rfl, rfl⟩
  have hcounting : total Pc.counting (c.pcs.set i (.readDone t)) + 1
      = total Pc.counting c.pcs := total_set Pc.counting hi (.readDone t)
  refine ⟨.readDone t, _, rfl, ?_, by simp [Pc.left], fun e he => (by cases he), fun _ => rfl⟩
  refine h.next hi hn (fun hw => by cases hw) { h.agrees with } rfl rfl rfl
    (fun l => by cases l <;> rfl) ?_
  have hlisted := h.stats.counting (by omega)
  have htx_n := h.stats.tx_n
  have hmerging : total Pc.mergingStats (c.pcs.set i (.readDone t))
      = total Pc.mergingStats c.pcs := total_next hi rfl
  have hmerges : total Pc.merges (c.pcs.set i (.readDone t)) = total Pc.merges c.pcs :=
    total_next hi rfl
  constructor
  · show a.stats_.tx_n = c.shared.stats_.tx_n + 1 + _
    omega
  · intro _
    show (c.shared.txs_.length : Int) = a.stats_.open_tx_n
    rw [hlisted, h.agrees.txs]
  · exact fun _ => hlisted
  · rw [hmerging]; exact h.stats.tx_stats
  · rw [hmerges]; exact h.stats.merged
  · rw [hmerges]; exact h.stats.merging

/-- **A writer's statistics are merged.** -/
theorem advances_closeMerge (h : Sim a c) {k : Closing}
    (hi : c.pcs[i]? = some (.closeMerge k)) : Advances inplace_merge a c i (.closeMerge k) := by
  have hn : Pc.Next (.closeMerge k) (.closeDone k) := ⟨Or.inl rfl, rfl, rfl⟩
  have hk := h.closing _ (List.mem_of_getElem? hi) k rfl
  have hcounting : total Pc.counting (c.pcs.set i (.closeDone k)) = total Pc.counting c.pcs :=
    total_next hi rfl
  have hmerging : total Pc.mergingStats (c.pcs.set i (.closeDone k)) + k.tx.stats_
      = total Pc.mergingStats c.pcs + 0 := total_set Pc.mergingStats hi (.closeDone k)
  have hmerges : total Pc.merges (c.pcs.set i (.closeDone k)) + 1 = total Pc.merges c.pcs :=
    total_set Pc.merges hi (.closeDone k)
  have hzero := h.stats.merging (by omega)
  refine ⟨.closeDone k, _, rfl, ?_, by simp [Pc.left], fun e he => (by cases he), fun _ => rfl⟩
  refine h.next hi hn (fun hw => by cases hw) { h.agrees with } rfl rfl rfl
    (fun l => by cases l <;> rfl) ?_
  have hgrab : k.freelist_free_n = 0 ∧ k.freelist_pending_n = 0 ∧ k.freelist_alloc = 0 := by
    rw [hk.grabbed]
    exact ⟨rfl, rfl, rfl⟩
  constructor
  · rw [hcounting]; exact h.stats.tx_n
  · rw [hcounting]; exact h.stats.open_tx_n
  · rw [hcounting]; exact h.stats.counting
  · show a.stats_.tx_stats = c.shared.stats_.tx_stats + k.tx.stats_ + _
    rw [h.stats.tx_stats, add_assoc, add_comm k.tx.stats_, hmerging, add_zero]
  · intro _
    refine ⟨hgrab.1.trans hzero.1.symm, hgrab.2.1.trans hzero.2.1.symm, ?_,
      hgrab.2.2.trans hzero.2.2.2.symm⟩
    show (k.freelist_free_n + k.freelist_pending_n) * _ = _
    rw [hgrab.1, hgrab.2.1, hzero.2.2.1, Int.add_zero, Int.zero_mul]
  · exact fun _ => hzero

/-! ### Every line -/

/-- **A line that takes a lock, which it gets.** -/
theorem advances_wants (h : Sim a c) (hi : c.pcs[i]? = some pc) {l : Lock}
    (hl : pc.wants = some l) {s' : State} (htake : l.take c.shared = .ok () s') :
    Advances inplace_merge a c i pc := by
  obtain ⟨pc', hline, hon, hholds⟩ := Pc.line_of_wants inplace_merge hl
  obtain ⟨hs, htaken⟩ := take_ok htake
  refine ⟨pc', s', ?_, ?_, hon.left, ?_, fun _ => hon.outcome⟩
  · rw [hline]
    exact bind_ok htake
  · rw [hon.commits]
    refine h.onward hi hon hs fun l' => ?_
    have h₁ := htaken l'
    have h₂ := hholds l'
    omega
  · rw [hon.commits]
    exact fun e he => by cases he

/-- **A line that gives a lock back.** -/
theorem advances_gives (h : Sim a c) (hi : c.pcs[i]? = some pc) {l : Lock}
    (hl : pc.gives = some l) : Advances inplace_merge a c i pc := by
  obtain ⟨pc', hline, hon, hholds⟩ := Pc.line_of_gives inplace_merge hl
  -- the lock is held, by this thread if by nobody else
  have hpos : 0 < c.shared.taken l := by
    have h₁ := h.taken_le (List.mem_of_getElem? hi) l
    have h₂ := hholds l
    rw [if_pos rfl] at h₂
    omega
  obtain ⟨s', hgive⟩ := give_of_taken hpos
  obtain ⟨hs, htaken⟩ := give_ok hgive
  refine ⟨pc', s', ?_, ?_, hon.left, ?_, fun _ => hon.outcome⟩
  · rw [hline]
    exact bind_ok hgive
  · rw [hon.commits]
    refine h.onward hi hon hs fun l' => ?_
    have h₁ := htaken l'
    have h₂ := hholds l'
    omega
  · rw [hon.commits]
    exact fun e he => by cases he

/-- The line waits for a lock that is held. -/
structure Waits (inplace_merge : Merge Pgid) (s : State) (pc : Pc) (l : Lock) : Prop where
  wants : pc.wants = some l
  ne : l ≠ .mmaplock
  taken : 0 < s.taken l
  line : pc.line inplace_merge s = .error .blocked s

/-- **A thread is between calls, or takes its line, or waits for a lock.** -/
theorem line_cases (inplace_merge : Merge Pgid) (h : Sim a c) (hi : c.pcs[i]? = some pc) :
    pc.isIdle = true ∨ Advances inplace_merge a c i pc ∨
      ∃ l, Waits inplace_merge c.shared pc l := by
  rcases hwants : pc.wants with - | l
  · rcases hgives : pc.gives with - | l
    · cases pc with
      | idle => exact Or.inl rfl
      | readBody => exact Or.inr (Or.inl (advances_readBody h hi))
      | readCount => exact Or.inr (Or.inl (advances_readCount h hi))
      | writeTest => exact Or.inr (Or.inl (advances_writeTest h hi))
      | writeBody => exact Or.inr (Or.inl (advances_writeBody h hi))
      | rollBody => exact Or.inr (Or.inl (advances_rollBody h hi))
      | closeMerge => exact Or.inr (Or.inl (advances_closeMerge h hi))
      | closeClear => exact Or.inr (Or.inl (advances_closeClear h hi))
      | _ => first | (cases hwants; done) | cases hgives
    · exact Or.inr (Or.inl (advances_gives h hi hgives))
  · rcases take_or_blocked h.mmap h.stat l with ⟨s', htake⟩ | ⟨hne, hpos, hblocked⟩
    · exact Or.inr (Or.inl (advances_wants h hi hwants htake))
    · obtain ⟨pc', hline, -⟩ := Pc.line_of_wants inplace_merge hwants
      refine Or.inr (Or.inr ⟨l, hwants, hne, hpos, ?_⟩)
      rw [hline]
      exact bind_error hblocked

/-! ### Every move -/

theorem commits_idle (hpc : pc.isIdle = true) (s : State) : pc.commits s = [] := by
  cases pc <;> cases hpc
  rfl

/-- A call begins with nothing but the transaction it may be about. -/
structure Pc.Bare (pc : Pc) : Prop where
  closing : pc.closing = none
  holds : ∀ l, pc.holds l = 0
  counting : pc.counting = 0
  merging : pc.merging = none
  willing : pc.willing = false
  rolls : pc.rolls = pc.tx

theorem bare_of_entry {e : Event} (hentry : e.entry = some pc') : pc'.Bare := by
  cases e with
  | begin writable =>
      cases writable <;> cases hentry <;>
        exact ⟨rfl, fun l => by cases l <;> rfl, rfl, rfl, rfl, rfl⟩
  | rollback =>
      cases hentry
      exact ⟨rfl, fun l => by cases l <;> rfl, rfl, rfl, rfl, rfl⟩
  | free => cases hentry

/-- What the rules say of the transaction that a call is about. -/
theorem rolled_of_mayCall {e : Event} (hmay : c.MayCall i e) (hentry : e.entry = some pc')
    (ht : pc'.tx = some t) :
    (∃ tx, c.shared.heap[t]? = some tx ∧ tx.managed_ = false ∧
      (tx.writable_ = true → c.owner t = i)) ∧ ∀ pc ∈ c.pcs, pc.tx ≠ some t := by
  cases e with
  | begin writable => cases writable <;> cases hentry <;> cases ht
  | rollback =>
      cases hentry
      cases ht
      exact hmay.2
  | free => cases hentry

/-- Nobody else is about a transaction when a call about it begins. -/
theorem works_start (h : Sim a c) (hi : c.pcs[i]? = some (.idle last))
    (hfree : pc'.tx = some t → ∀ pc ∈ c.pcs, pc.tx ≠ some t) :
    total (Pc.works t) (c.pcs.set i pc') ≤ 1 := by
  have hset : total (Pc.works t) (c.pcs.set i pc') + 0 = total (Pc.works t) c.pcs + pc'.works t :=
    total_set (Pc.works t) hi pc'
  have hle := h.alone t
  by_cases ht : pc'.tx = some t
  · have hzero : total (Pc.works t) c.pcs = 0 :=
      total_eq_zero fun pc₀ hmem => Pc.works_eq_zero (hfree ht pc₀ hmem)
    have hone := Pc.works_eq_one ht
    omega
  · have hzero := Pc.works_eq_zero ht
    omega

/-- A thread calls. -/
theorem Sim.start (h : Sim a c) {e : Event} (hmay : c.MayCall i e) {pc' : Pc}
    (hentry : e.entry = some pc') : Sim a { c with pcs := c.pcs.set i pc' } := by
  have hbare := bare_of_entry hentry
  have hrolled := fun t (ht : pc'.tx = some t) => rolled_of_mayCall hmay hentry ht
  obtain ⟨⟨pc, hi, hidle⟩, -⟩ := hmay
  obtain ⟨last, rfl⟩ : ∃ last, pc = .idle last := by
    cases pc <;> cases hidle
    exact ⟨_, rfl⟩
  refine ⟨h.inv, h.readers, h.agrees, ?_, h.mmap, h.stat, h.length, ?_, ?_, ?_, ?_, ?_, ?_, ?_, ?_⟩
  · intro l
    have hsame : total (fun pc : Pc => pc.holds l) (c.pcs.set i pc')
        = total (fun pc : Pc => pc.holds l) c.pcs := total_next hi (hbare.holds l)
    show c.shared.taken l = a.taken l + total (fun pc : Pc => pc.holds l) (c.pcs.set i pc')
    rw [hsame]
    exact h.locks l
  · refine fun t hno => h.heap t fun pc₀ hmem k hk => ?_
    rcases mem_set_of_mem hi hmem pc' with rfl | hmem
    · cases hk
    · exact hno pc₀ hmem k hk
  · exact forall_set h.closing fun k hk => by
      rw [hbare.closing] at hk
      cases hk
  · exact fun t => works_start h hi fun ht => (hrolled t ht).2
  · refine forall_set h.known fun t ht => ?_
    obtain ⟨⟨tx, hget, -⟩, -⟩ := hrolled t ht
    exact (List.getElem?_eq_some_iff.mp hget).1
  · intro j pc₀ t tx hj ht hget hw
    by_cases hij : i = j
    · subst hij
      obtain rfl : pc' = pc₀ := Option.some.inj
        ((List.getElem?_set_self (List.getElem?_eq_some_iff.mp hi).1).symm.trans hj)
      obtain ⟨⟨tx', hget', -, hown⟩, -⟩ := hrolled t ht
      obtain rfl := Option.some.inj (hget'.symm.trans hget)
      exact hown hw
    · exact h.owned j pc₀ t tx ((List.getElem?_set_ne hij).symm.trans hj) ht hget hw
  · refine forall_set h.rolling fun t ht => ?_
    obtain ⟨⟨tx, hget, hm, -⟩, -⟩ := hrolled t (hbare.rolls.symm.trans ht)
    exact ⟨tx, hget, hm⟩
  · exact forall_set h.willing fun hw => by
      rw [hbare.willing] at hw
      cases hw
  · exact h.stats.next hi hbare.counting hbare.merging

/-- Pages are freed on both sides. -/
theorem Sim.free (h : Sim a c) (pending : Pending) :
    Sim (step inplace_merge a (.free pending))
      { c with shared := step inplace_merge c.shared (.free pending) } where
  inv := inv_step h.inv _
  readers := h.readers
  agrees := { h.agrees with
    freelist := congrArg (fun f : FreeList => { f with pending := pending }) h.agrees.freelist }
  locks := h.locks
  mmap := h.mmap
  stat := h.stat
  length := h.length
  heap := h.heap
  closing pc hmem k hk := by
    have hk := h.closing pc hmem k hk
    exact ⟨hk.grabbed, hk.writable, hk.here, hk.there⟩
  alone := h.alone
  known := h.known
  owned := h.owned
  rolling := h.rolling
  willing := h.willing
  stats := h.stats

/-- **Every move keeps the relation.** -/
theorem sim_step (inplace_merge : Merge Pgid) (h : Sim a c) (m : Move) :
    Sim (run inplace_merge a (c.commits m)) (c.step inplace_merge m) := by
  cases m with
  | start i e =>
      rw [Threads.step, Threads.commits]
      by_cases hmay : c.MayCall i e
      · rw [if_pos hmay]
        rcases hentry : e.entry with - | pc
        · rw [if_pos ⟨hmay, rfl⟩]
          cases e with
          | begin writable => cases writable <;> cases hentry
          | rollback => cases hentry
          | free pending => exact h.free pending
        · rw [if_neg fun hno => by cases hno.2]
          exact h.start hmay hentry
      · rw [if_neg hmay, if_neg fun hno => hmay hno.1]
        exact h
  | line i =>
      rw [Threads.step, Threads.commits]
      rcases hi : c.pcs[i]? with - | pc
      · exact h
      · rcases line_cases inplace_merge h hi with hidle | hadv | ⟨l, hwait⟩
        · have hline : pc.line inplace_merge c.shared = .error .blocked c.shared := by
            cases pc <;> cases hidle
            rfl
          simp only [hline, commits_idle hidle]
          exact h
        · obtain ⟨pc', s', hline, hsim, -⟩ := hadv
          simp only [hline]
          exact hsim
        · obtain ⟨pc', -, hon, -⟩ := Pc.line_of_wants inplace_merge hwait.wants
          simp only [hwait.line, hon.commits]
          exact h

/-- **Every run keeps the relation.** -/
theorem sim_run (moves : List Move) : ∀ {a c}, Sim a c →
    Sim (run inplace_merge a (c.committed inplace_merge moves))
      (c.run inplace_merge moves) := by
  induction moves with
  | nil => exact fun h => h
  | cons m moves ih =>
      intro a c h
      have hstep := ih (sim_step inplace_merge h m)
      rw [Threads.committed, BoltCpp.run, List.foldl_append]
      exact hstep

theorem sim_initial (h₀ : Fresh s) (n : Nat) : Sim s (.initial s n) := by
  have hidle : ∀ pc ∈ List.replicate n (Pc.idle (.ok none)), pc = .idle (.ok none) :=
    fun pc hmem => List.eq_of_mem_replicate hmem
  have hzero : ∀ {M : Type} [AddCommMonoid M] {f : Pc → M}, f (.idle (.ok none)) = 0 →
      total f (List.replicate n (Pc.idle (.ok none))) = 0 := fun hf =>
    total_eq_zero fun pc hmem => by rw [hidle pc hmem, hf]
  refine ⟨h₀.inv, ?_, ⟨rfl, rfl, rfl, rfl, rfl, rfl, rfl, rfl, rfl⟩, ?_, ?_, ?_, rfl,
    fun _ _ => rfl, ?_, ?_, ?_, ?_, ?_, ?_, ?_⟩
  · rw [h₀.txs]
    exact fun t ht => by cases ht
  · intro l
    show s.taken l = s.taken l + total (fun pc : Pc => pc.holds l) (List.replicate n _)
    rw [hzero (by cases l <;> rfl), add_zero]
  · show s.mmaplock_.exclusive = false
    rw [h₀.mmaplock]
    rfl
  · show s.statlock_.shared = 0
    rw [h₀.statlock]
    rfl
  · intro pc hmem k hk
    rw [hidle pc hmem] at hk
    cases hk
  · intro t
    show total (Pc.works t) (List.replicate n (Pc.idle (.ok none))) ≤ 1
    rw [hzero (Pc.works_eq_zero fun h => by cases h)]
    exact Nat.zero_le 1
  · intro pc hmem t ht
    rw [hidle pc hmem] at ht
    cases ht
  · intro i pc t tx hi ht
    rw [hidle pc (List.mem_of_getElem? hi)] at ht
    cases ht
  · intro pc hmem t ht
    rw [hidle pc hmem] at ht
    cases ht
  · intro pc hmem hw
    rw [hidle pc hmem] at hw
    cases hw
  · show StatsSim s.stats_ s.txs_.length s.stats_ (List.replicate n (Pc.idle (.ok none)))
    constructor
    · rw [hzero rfl]
      exact (Int.add_zero _).symm
    · exact fun _ => rfl
    · rw [hzero rfl]
      exact fun hpos => absurd hpos (Nat.lt_irrefl 0)
    · rw [hzero rfl, add_zero]
    · exact fun _ => ⟨rfl, rfl, rfl, rfl⟩
    · rw [hzero rfl]
      exact fun hpos => absurd hpos (Nat.lt_irrefl 0)

/-! ### Linearizability -/

theorem toNat_inj {b b' : Bool} (h : b.toNat = b'.toNat) : b = b' := by
  cases b <;> cases b' <;> first | rfl | cases h

/-- **When nobody is in a call, the two states are one.** -/
theorem Sim.eq_of_finished (h : Sim a c) (hfin : c.Finished) : c.shared = a := by
  have hzero : ∀ {M : Type} [AddCommMonoid M] {f : Pc → M}, (∀ last, f (.idle last) = 0) →
      total f c.pcs = 0 := fun hf => total_eq_zero fun pc hmem => by
    have hidle := hfin pc hmem
    cases pc <;> cases hidle
    exact hf _
  have hlocks : ∀ l, c.shared.taken l = a.taken l := fun l => by
    have hl := h.locks l
    rw [hzero fun _ => by cases l <;> rfl] at hl
    exact hl
  have hheap : c.shared.heap = a.heap := by
    refine List.ext_getElem? fun t => h.heap t fun pc hmem k hk => ?_
    have hidle := hfin pc hmem
    cases pc <;> cases hidle
    cases hk
  have hstats : c.shared.stats_ = a.stats_ := by
    have htx_n := h.stats.tx_n
    have htx_stats := h.stats.tx_stats
    rw [hzero fun _ => rfl] at htx_n htx_stats
    obtain ⟨h₁, h₂, h₃, h₄⟩ := h.stats.merged (hzero fun _ => rfl)
    have h₅ := h.stats.open_tx_n (hzero fun _ => rfl)
    rw [add_zero] at htx_stats
    have h₆ : c.shared.stats_.tx_n = a.stats_.tx_n := by omega
    rcases hs : c.shared.stats_ with ⟨_, _, _, _, _, _, _⟩
    rcases ha : a.stats_ with ⟨_, _, _, _, _, _, _⟩
    simp only [hs, ha] at h₁ h₂ h₃ h₄ h₅ h₆ htx_stats
    rw [h₁, h₂, h₃, h₄, h₅, h₆, htx_stats]
  have hrw : c.shared.rwlock_ = a.rwlock_ :=
    congrArg Mutex.mk (toNat_inj (hlocks .rwlock))
  have hmeta : c.shared.metalock_ = a.metalock_ :=
    congrArg Mutex.mk (toNat_inj (hlocks .metalock))
  have hmmap : c.shared.mmaplock_ = a.mmaplock_ :=
    congrArg₂ SharedMutex.mk (h.mmap.trans h.inv.mmaplock.symm) (hlocks .mmaplock)
  have hstat : c.shared.statlock_ = a.statlock_ :=
    congrArg₂ SharedMutex.mk (toNat_inj (hlocks .statlock))
      (h.stat.trans (congrArg SharedMutex.shared h.inv.statlock).symm)
  obtain ⟨hdb, ho, hr, hp, hd, hx, ht, hf, hpool⟩ := h.agrees
  rcases hs : c.shared with ⟨⟨_, _, _, _, _, _, _, _, _, _, _, _, _, _⟩, _⟩
  rcases ha : a with ⟨⟨_, _, _, _, _, _, _, _, _, _, _, _, _, _⟩, _⟩
  simp only [hs, ha] at hdb ho hr hp hd hx ht hf hpool hheap hstats hrw hmeta hmmap hstat
  rw [hdb, ho, hr, hp, hd, hx, ht, hf, hpool, hheap, hstats, hrw, hmeta, hmmap, hstat]

/-- A call takes effect at most once, and has no outcome before. -/
theorem commits_cases (s : State) (pc : Pc) :
    pc.commits s = [] ∨ ∃ e, pc.commits s = [e] ∧ pc.outcome = none := by
  cases pc with
  | readBody => exact Or.inr ⟨_, rfl, rfl⟩
  | writeBody => exact Or.inr ⟨_, rfl, rfl⟩
  | rollBody => exact Or.inr ⟨_, rfl, rfl⟩
  | writeTest new stale =>
      rw [Pc.commits]
      split
      · exact Or.inr ⟨_, rfl, rfl⟩
      · exact Or.inl rfl
  | _ => exact Or.inl rfl

/-- **Calls on a database are linearizable**, whatever the order in which the
threads take their lines.  Every call takes effect at one of its lines; with
this line it gets the outcome it has when the calls that took effect are made
one after the other, and it keeps it until it ends.  When no call is under
way, the database is as these calls have left it. -/
theorem linearizable (h₀ : Fresh s) (n : Nat) (moves : List Move) :
    let c := Threads.run inplace_merge (.initial s n) moves
    let a := run inplace_merge s (Threads.committed inplace_merge (.initial s n) moves)
    (c.Finished → c.shared = a) ∧
      ∀ (i : Nat) (pc pc' : Pc) (s' : State), c.pcs[i]? = some pc →
        pc.line inplace_merge c.shared = .ok pc' s' →
        (pc.commits c.shared = [] ∧ pc'.outcome = pc.outcome) ∨
          ∃ e r, pc.commits c.shared = [e] ∧ pc.outcome = none ∧ pc'.outcome = some r ∧
            e.outcome inplace_merge a = some r := by
  intro c a
  have h : Sim a c := sim_run moves (sim_initial h₀ n)
  refine ⟨h.eq_of_finished, fun i pc pc' s' hi hline => ?_⟩
  rcases line_cases inplace_merge h hi with hidle | hadv | ⟨l, hwait⟩
  · cases pc <;> cases hidle
    cases hline
  · obtain ⟨pc₁, s₁, hline₁, -, -, hcommit, hkeep⟩ := hadv
    cases hline.symm.trans hline₁
    rcases commits_cases c.shared pc with hnone | ⟨e, hone, houtcome⟩
    · exact Or.inl ⟨hnone, hkeep hnone⟩
    · obtain ⟨r, hr, hr'⟩ := hcommit e (hone ▸ List.mem_singleton_self e)
      exact Or.inr ⟨e, r, hone, houtcome, hr, hr'⟩
  · cases hline.symm.trans hwait.line

/-- A reader and a writer begin at the same time; the reader is the first to
have `metalock_`, and the writer the first to be done. -/
def sampleMoves : List Move :=
  [.start 0 (.begin false (sampleNewTx 2) fun _ => 0),
    .start 1 (.begin true (sampleNewTx 3) fun _ => 0),
    .line 1, .line 1, .line 0, .line 1, .line 0, .line 0, .line 0, .line 1, .line 1, .line 1,
    .start 1 (.rollback (sampleNewTx 3).snapshot 1),
    .line 1, .line 1, .line 1, .line 1, .line 0, .line 1, .line 1, .line 0, .line 0, .line 0]

theorem finished_of_pcs {c : Threads} (lasts : List Outcome) (h : c.pcs = lasts.map Pc.idle) :
    c.Finished := by
  intro pc hmem
  rw [h] at hmem
  obtain ⟨last, -, rfl⟩ := List.mem_map.mp hmem
  rfl

theorem finished_sampleMoves :
    (Threads.run merge (.initial (idleState .sample) 2) sampleMoves).Finished :=
  finished_of_pcs [.ok (some 0), .ok none] rfl

theorem linearizable_sample :
    (Threads.run merge (.initial (idleState .sample) 2) sampleMoves).shared
      = run merge (idleState .sample)
          [.begin false (sampleNewTx 2) fun _ => 0, .begin true (sampleNewTx 3) fun _ => 0,
            .rollback (sampleNewTx 3).snapshot 1] :=
  (linearizable (fresh_idleState .sample) 2 sampleMoves).1 finished_sampleMoves

end

end BoltCpp
