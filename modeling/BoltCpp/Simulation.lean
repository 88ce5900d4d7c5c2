/-
BoltCpp/Simulation.lean

The threads and the calls they make, one after the other.

`Sim a c` relates the state `c` the threads are in to the state `a` in which
the calls that took effect have been made, each at once.  What `c` lacks is
what the threads on their way are going to do: the locks they hold are to be
given back, readers are to be counted, the statistics of writers to be merged
and their references to be cleared.

The rules are about one thread that takes one line: `Sim.next` leaves the
transactions alone, `Sim.touch` changes the one the call is about (`Touches`),
`Sim.append` creates one (`Appends`).
-/
import BoltCpp.Interleaving
import BoltCpp.Lib.Crowd

namespace BoltCpp

open Crowd Locks RangeMerge

variable {inplace_merge : Merge Pgid} {s : State}

/-! ### The relation -/

/-- Two states agree on all but locks, transactions and statistics. -/
structure State.Agrees (s a : State) : Prop where
  toDB : s.toDB = a.toDB
  opened : s.opened_ = a.opened_
  readOnly : s.read_only_ = a.read_only_
  pageSize : s.page_size_ = a.page_size_
  dataSz : s.data_sz_ = a.data_sz_
  rwtx : s.rwtx_ = a.rwtx_
  txs : s.txs_ = a.txs_
  freelist : s.freelist_ = a.freelist_
  pool : s.page_pool_ = a.page_pool_

/-- The statistics `s` lack what the threads are going to add to them to make
them `a`; `listed` transactions are listed. -/
structure StatsSim (a : Stats) (listed : Nat) (s : Stats) (pcs : List Pc) : Prop where
  tx_n : a.tx_n = s.tx_n + total Pc.counting pcs
  open_tx_n : total Pc.counting pcs = 0 → s.open_tx_n = a.open_tx_n
  counting : 0 < total Pc.counting pcs → a.open_tx_n = listed
  tx_stats : a.tx_stats = s.tx_stats + total Pc.mergingStats pcs
  merged : total Pc.merges pcs = 0 →
    s.free_page_n = a.free_page_n ∧ s.pending_page_n = a.pending_page_n ∧
      s.free_alloc = a.free_alloc ∧ s.freelist_inuse = a.freelist_inuse
  merging : 0 < total Pc.merges pcs →
    a.free_page_n = 0 ∧ a.pending_page_n = 0 ∧ a.free_alloc = 0 ∧ a.freelist_inuse = 0

/-- The writer `k` is being closed: in `a` it is closed. -/
structure Closing.Sim (k : Closing) (a s : State) : Prop where
  grabbed : k = .of k.t k.tx
  writable : k.tx.writable_ = true
  here : s.heap[k.t]? = some k.tx
  there : a.heap[k.t]? = some k.tx.closed

/-- Who is busy with a writer has begun it. -/
def Threads.Owned (c : Threads) : Prop :=
  ∀ (i : Nat) (pc : Pc) (t : TxPtr) (tx : Transaction), c.pcs[i]? = some pc → pc.tx = some t →
    c.shared.heap[t]? = some tx → tx.writable_ = true → c.owner t = i

/-- The threads are in `c`, and the calls that took effect lead to `a`. -/
structure Sim (a : State) (c : Threads) : Prop where
  inv : Inv a
  readers : ∀ t ∈ a.txs_, ∃ tx, a.heap[t]? = some tx ∧ tx.writable_ = false
  agrees : c.shared.Agrees a
  locks : ∀ l, c.shared.taken l = a.taken l + total (fun pc => pc.holds l) c.pcs
  mmap : c.shared.mmaplock_.exclusive = false
  stat : c.shared.statlock_.shared = 0
  length : c.shared.heap.length = a.heap.length
  heap : ∀ t, (∀ pc ∈ c.pcs, ∀ k, pc.closing = some k → k.t ≠ t) →
    c.shared.heap[t]? = a.heap[t]?
  closing : ∀ pc ∈ c.pcs, ∀ k, pc.closing = some k → k.Sim a c.shared
  alone : ∀ t, total (Pc.works t) c.pcs ≤ 1
  known : ∀ pc ∈ c.pcs, ∀ t, pc.tx = some t → t < c.shared.heap.length
  owned : c.Owned
  rolling : ∀ pc ∈ c.pcs, ∀ t, pc.rolls = some t →
    ∃ tx, c.shared.heap[t]? = some tx ∧ tx.managed_ = false
  willing : ∀ pc ∈ c.pcs, pc.willing = true → a.read_only_ = false
  stats : StatsSim a.stats_ a.txs_.length c.shared.stats_ c.pcs

section

variable {a : State} {c : Threads} {i : Nat} {pc pc' : Pc}

theorem Pc.tx_of_closing {k : Closing} (h : pc.closing = some k) : pc.tx = some k.t := by
  cases pc <;> cases h <;> rfl

theorem Pc.tx_of_rolls {t : TxPtr} (h : pc.rolls = some t) : pc.tx = some t := by
  cases pc <;> cases h
  rfl

theorem Pc.works_eq_one {t : TxPtr} (h : pc.tx = some t) : pc.works t = 1 := if_pos h

theorem Pc.works_eq_zero {t : TxPtr} (h : pc.tx ≠ some t) : pc.works t = 0 := if_neg h

/-- What holds of every place still does if it holds of the new one. -/
theorem forall_set {P : Pc → Prop} (h : ∀ pc ∈ c.pcs, P pc) (hnew : P pc') :
    ∀ pc ∈ c.pcs.set i pc', P pc := by
  intro pc₀ hmem
  rcases List.mem_or_eq_of_mem_set hmem with hold | rfl
  · exact h pc₀ hold
  · exact hnew

/-- A number all threads carry, after a line that leaves it as it was. -/
theorem total_next {M : Type} [AddCancelCommMonoid M] {f : Pc → M} (hi : c.pcs[i]? = some pc)
    (h : f pc' = f pc) : total f (c.pcs.set i pc') = total f c.pcs := by
  have hset := total_set f hi pc'
  rw [h] at hset
  exact add_right_cancel hset

theorem StatsSim.next {a s : Stats} {listed : Nat} (h : StatsSim a listed s c.pcs)
    (hi : c.pcs[i]? = some pc) (hcounting : pc'.counting = pc.counting)
    (hmerging : pc'.merging = pc.merging) : StatsSim a listed s (c.pcs.set i pc') := by
  have h₁ : total Pc.counting (c.pcs.set i pc') = total Pc.counting c.pcs :=
    total_next hi hcounting
  have h₂ : total Pc.mergingStats (c.pcs.set i pc') = total Pc.mergingStats c.pcs :=
    total_next hi (by rw [Pc.mergingStats, Pc.mergingStats, hmerging])
  have h₃ : total Pc.merges (c.pcs.set i pc') = total Pc.merges c.pcs :=
    total_next hi (by rw [Pc.merges, Pc.merges, hmerging])
  constructor
  · rw [h₁]; exact h.tx_n
  · rw [h₁]; exact h.open_tx_n
  · rw [h₁]; exact h.counting
  · rw [h₂]; exact h.tx_stats
  · rw [h₃]; exact h.merged
  · rw [h₃]; exact h.merging

theorem State.Agrees.of_lockStep {s s' : State} (h : s.Agrees a) (hs : LockStep s s') :
    s'.Agrees a where
  toDB := (congrArg (fun s : State => s.toDB) hs.same).trans h.toDB
  opened := (congrArg (fun s : State => s.opened_) hs.same).trans h.opened
  readOnly := (congrArg (fun s : State => s.read_only_) hs.same).trans h.readOnly
  pageSize := (congrArg (fun s : State => s.page_size_) hs.same).trans h.pageSize
  dataSz := (congrArg (fun s : State => s.data_sz_) hs.same).trans h.dataSz
  rwtx := (congrArg (fun s : State => s.rwtx_) hs.same).trans h.rwtx
  txs := (congrArg (fun s : State => s.txs_) hs.same).trans h.txs
  freelist := (congrArg (fun s : State => s.freelist_) hs.same).trans h.freelist
  pool := (congrArg (fun s : State => s.page_pool_) hs.same).trans h.pool

theorem LockStep.heap {s s' : State} (hs : LockStep s s') : s'.heap = s.heap :=
  (congrArg (fun s : State => s.heap) hs.same :)

theorem LockStep.stats {s s' : State} (hs : LockStep s s') : s'.stats_ = s.stats_ :=
  (congrArg (fun s : State => s.stats_) hs.same :)

/-- The transaction a call is about stays its own. -/
theorem alone_next (h : ∀ t, total (Pc.works t) c.pcs ≤ 1) (hi : c.pcs[i]? = some pc)
    (htx : pc'.tx = pc.tx ∨ pc'.tx = none) (t : TxPtr) :
    total (Pc.works t) (c.pcs.set i pc') ≤ 1 := by
  have hset := total_set (Pc.works t) hi pc'
  have hle : pc'.works t ≤ pc.works t := by
    rcases htx with heq | hnone
    · rw [Pc.works, Pc.works, heq]
    · rw [Pc.works_eq_zero (by rw [hnone]; exact fun h => by cases h)]
      exact Nat.zero_le _
  have := h t
  omega

/-- A transaction has one call at most that is about it. -/
theorem Sim.others (h : Sim a c) (hi : c.pcs[i]? = some pc) {t : TxPtr} (ht : pc.tx = some t)
    {pc₀ : Pc} (hmem : pc₀ ∈ c.pcs.set i pc') : pc₀ = pc' ∨ pc₀ ∈ c.pcs ∧ pc₀.tx ≠ some t := by
  rcases mem_set_cases hmem with heq | ⟨j, hj, hget⟩
  · exact Or.inl heq
  · refine Or.inr ⟨List.mem_of_getElem? hget, fun ht₀ => ?_⟩
    have htwo := add_le_total (f := Pc.works t) hj hget hi
    have hone := h.alone t
    rw [Pc.works_eq_one ht₀, Pc.works_eq_one ht] at htwo
    omega

/-- The locks are held by the calls, and by the transactions on the other
side. -/
theorem Sim.locks_took (h : Sim a c) (hi : c.pcs[i]? = some pc) {a' s' : State}
    (hlocks : ∀ l, s'.taken l + a.taken l + pc.holds l
      = c.shared.taken l + a'.taken l + pc'.holds l) (l : Lock) :
    s'.taken l = a'.taken l + total (fun pc : Pc => pc.holds l) (c.pcs.set i pc') := by
  have hset := total_set (fun pc : Pc => pc.holds l) hi pc'
  have h₁ := hlocks l
  have h₂ := h.locks l
  omega

/-- A line makes nobody busy with a writer of somebody else. -/
theorem Sim.owned_took (h : Sim a c) (hi : c.pcs[i]? = some pc)
    (htx : pc'.tx = pc.tx ∨ pc'.tx = none ∨ pc'.tx = some c.shared.heap.length) {s' : State}
    (hkind : ∀ t < c.shared.heap.length, ∀ tx', s'.heap[t]? = some tx' →
      ∃ tx, c.shared.heap[t]? = some tx ∧ tx.writable_ = tx'.writable_) :
    (c.took i s' pc').Owned := by
  intro j pc₀ t tx' hj ht hget hw
  -- who was busy with `t` before is its owner
  have hold : ∀ {j : Nat} {pc : Pc}, c.pcs[j]? = some pc → pc.tx = some t →
      (c.took i s' pc').owner t = j := by
    intro j pc hj ht
    have hlt := h.known pc (List.mem_of_getElem? hj) t ht
    obtain ⟨tx, hget, hsame⟩ := hkind t hlt tx' hget
    exact (if_pos hlt).trans (h.owned j pc t tx hj ht hget (hsame.trans hw))
  by_cases hij : i = j
  · subst hij
    obtain rfl : pc' = pc₀ := Option.some.inj
      ((List.getElem?_set_self (List.getElem?_eq_some_iff.mp hi).1).symm.trans hj)
    rcases htx with heq | hnone | hnew
    · exact hold hi (heq.symm.trans ht)
    · rw [hnone] at ht
      cases ht
    · obtain rfl := Option.some.inj (hnew.symm.trans ht)
      exact if_neg (Nat.lt_irrefl _)
  · exact hold ((List.getElem?_set_ne hij).symm.trans hj) ht

/-- The transaction that a call is about stays in the heap. -/
theorem Sim.known_took (h : Sim a c) (hi : c.pcs[i]? = some pc)
    (htx : pc'.tx = pc.tx ∨ pc'.tx = none) {s' : State}
    (hlen : s'.heap.length = c.shared.heap.length) :
    ∀ pc ∈ c.pcs.set i pc', ∀ t, pc.tx = some t → t < s'.heap.length := by
  rw [hlen]
  refine forall_set h.known fun t ht => ?_
  rcases htx with heq | hnone
  · exact h.known pc (List.mem_of_getElem? hi) t (heq.symm.trans ht)
  · rw [hnone] at ht
    cases ht

/-- **A line that leaves the transactions alone.** -/
theorem Sim.next (h : Sim a c) (hi : c.pcs[i]? = some pc) (hn : pc.Next pc')
    (hw : pc'.willing = true → a.read_only_ = false) {s' : State} (hagrees : s'.Agrees a)
    (hheap : s'.heap = c.shared.heap)
    (hmmap : s'.mmaplock_.exclusive = c.shared.mmaplock_.exclusive)
    (hstat : s'.statlock_.shared = c.shared.statlock_.shared)
    (hlocks : ∀ l, s'.taken l + pc.holds l = c.shared.taken l + pc'.holds l)
    (hstats : StatsSim a.stats_ a.txs_.length s'.stats_ (c.pcs.set i pc')) :
    Sim a (c.took i s' pc') where
  inv := h.inv
  readers := h.readers
  agrees := hagrees
  locks := by
    show ∀ l, s'.taken l = a.taken l + total (fun pc : Pc => pc.holds l) (c.pcs.set i pc')
    refine h.locks_took hi fun l => ?_
    have := hlocks l
    omega
  mmap := hmmap.trans h.mmap
  stat := hstat.trans h.stat
  length := (congrArg List.length hheap).trans h.length
  heap t hno := by
    show s'.heap[t]? = a.heap[t]?
    rw [hheap]
    refine h.heap t fun pc₀ hmem k hk => ?_
    rcases mem_set_of_mem hi hmem pc' with rfl | hmem
    · exact hno pc' (self_mem_set hi pc') k (hn.closing.trans hk)
    · exact hno pc₀ hmem k hk
  closing := by
    show ∀ pc ∈ c.pcs.set i pc', ∀ k, pc.closing = some k → k.Sim a s'
    have hsame : ∀ {k : Closing}, k.Sim a c.shared → k.Sim a s' := fun hk =>
      ⟨hk.grabbed, hk.writable, by rw [hheap]; exact hk.here, hk.there⟩
    refine forall_set (fun pc₀ hmem k hk => hsame (h.closing pc₀ hmem k hk)) fun k hk => ?_
    exact hsame (h.closing pc (List.mem_of_getElem? hi) k (hn.closing.symm.trans hk))
  alone := alone_next h.alone hi hn.tx
  known := h.known_took hi hn.tx (congrArg List.length hheap)
  owned := h.owned_took hi (hn.tx.imp id Or.inl) fun t _ tx' hget =>
    ⟨tx', hheap ▸ hget, rfl⟩
  rolling := by
    show ∀ pc ∈ c.pcs.set i pc', ∀ t, pc.rolls = some t →
      ∃ tx, s'.heap[t]? = some tx ∧ tx.managed_ = false
    rw [hheap]
    exact forall_set h.rolling fun t ht => by rw [hn.rolls] at ht; cases ht
  willing := forall_set h.willing hw
  stats := hstats

/-- **A line that takes or gives a lock.** -/
theorem Sim.onward (h : Sim a c) (hi : c.pcs[i]? = some pc) (hn : pc.Onward pc') {s' : State}
    (hs : LockStep c.shared s')
    (hlocks : ∀ l, s'.taken l + pc.holds l = c.shared.taken l + pc'.holds l) :
    Sim a (c.took i s' pc') := by
  refine h.next hi hn.toNext (fun hw => ?_) (h.agrees.of_lockStep hs) hs.heap hs.mmap hs.stat
    hlocks ?_
  · exact h.willing pc (List.mem_of_getElem? hi) (hn.willing.symm.trans hw)
  · rw [hs.stats]
    exact h.stats.next hi hn.counting hn.merging

/-- The line changes the transaction it is about, from `tx₀` to `tx` here and to
`tx'` on the other side. -/
structure Touches (c : Threads) (i : Nat) (pc pc' : Pc) (a a' s' : State) (t : TxPtr)
    (tx₀ tx tx' : Transaction) : Prop where
  place : c.pcs[i]? = some pc
  about : pc.tx = some t
  next : pc'.tx = pc.tx ∨ pc'.tx = none
  rolls : pc'.rolls = none
  willing : pc'.willing = false
  old : c.shared.heap[t]? = some tx₀
  here : s'.heap = c.shared.heap.set t tx
  there : a'.heap = a.heap.set t tx'
  kind : tx₀.writable_ = tx.writable_
  closing : pc'.closing = none ∧ tx = tx' ∨
    tx' = tx.closed ∧ tx.writable_ = true ∧ pc'.closing = some (.of t tx)

section

variable {a' s' : State} {t t' : TxPtr} {tx₀ tx tx' : Transaction}

theorem Touches.self (hT : Touches c i pc pc' a a' s' t tx₀ tx tx') : s'.heap[t]? = some tx := by
  rw [hT.here, List.getElem?_set_self (List.getElem?_eq_some_iff.mp hT.old).1]

theorem Touches.self' (h : Sim a c) (hT : Touches c i pc pc' a a' s' t tx₀ tx tx') :
    a'.heap[t]? = some tx' := by
  rw [hT.there, List.getElem?_set_self (h.length ▸ (List.getElem?_eq_some_iff.mp hT.old).1)]

theorem Touches.other (hT : Touches c i pc pc' a a' s' t tx₀ tx tx') (hne : t ≠ t') :
    s'.heap[t']? = c.shared.heap[t']? ∧ a'.heap[t']? = a.heap[t']? := by
  rw [hT.here, hT.there, List.getElem?_set_ne hne, List.getElem?_set_ne hne]
  exact ⟨rfl, rfl⟩

/-- The transactions that nobody is closing are the same afterwards. -/
theorem Touches.heap (h : Sim a c) (hT : Touches c i pc pc' a a' s' t tx₀ tx tx')
    (hno : ∀ pc ∈ c.pcs.set i pc', ∀ k, pc.closing = some k → k.t ≠ t') :
    s'.heap[t']? = a'.heap[t']? := by
  by_cases heq : t = t'
  · subst heq
    rcases hT.closing with ⟨-, rfl⟩ | ⟨-, -, hclosing⟩
    · rw [hT.self, hT.self' h]
    · exact absurd rfl (hno pc' (self_mem_set hT.place pc') _ hclosing)
  · rw [(hT.other heq).1, (hT.other heq).2]
    refine h.heap t' fun pc₀ hmem k hk => ?_
    rcases mem_set_of_mem hT.place hmem pc' with rfl | hmem
    · intro hkt
      exact heq (Option.some.inj (hT.about.symm.trans ((Pc.tx_of_closing hk).trans
        (congrArg some hkt))))
    · exact hno pc₀ hmem k hk

/-- What is being closed is a writer, and closed on the other side. -/
theorem Touches.closing_sim (h : Sim a c) (hT : Touches c i pc pc' a a' s' t tx₀ tx tx') :
    ∀ pc ∈ c.pcs.set i pc', ∀ k, pc.closing = some k → k.Sim a' s' := by
  intro pc₀ hmem k hk
  rcases h.others hT.place hT.about hmem with rfl | ⟨hmem, hother⟩
  · rcases hT.closing with ⟨hnone, -⟩ | ⟨rfl, hwrite, hclosing⟩
    · rw [hnone] at hk
      cases hk
    · obtain rfl := Option.some.inj (hclosing.symm.trans hk)
      exact ⟨rfl, hwrite, hT.self, hT.self' h⟩
  · have hkt : t ≠ k.t := fun heq => hother (heq ▸ Pc.tx_of_closing hk)
    have hk := h.closing pc₀ hmem k hk
    exact ⟨hk.grabbed, hk.writable, (hT.other hkt).1.trans hk.here,
      (hT.other hkt).2.trans hk.there⟩

theorem Touches.rolling (h : Sim a c) (hT : Touches c i pc pc' a a' s' t tx₀ tx tx') :
    ∀ pc ∈ c.pcs.set i pc', ∀ t, pc.rolls = some t →
      ∃ tx, s'.heap[t]? = some tx ∧ tx.managed_ = false := by
  intro pc₀ hmem t' ht'
  rcases h.others hT.place hT.about hmem with rfl | ⟨hmem, hother⟩
  · rw [hT.rolls] at ht'
    cases ht'
  · have hne : t ≠ t' := fun heq => hother (heq ▸ Pc.tx_of_rolls ht')
    obtain ⟨tx₁, hget, hm⟩ := h.rolling pc₀ hmem t' ht'
    exact ⟨tx₁, (hT.other hne).1.trans hget, hm⟩

/-- A writer stays a writer. -/
theorem Touches.same_kind (hT : Touches c i pc pc' a a' s' t tx₀ tx tx') {tx₁ : Transaction}
    (hget : s'.heap[t']? = some tx₁) :
    ∃ tx₂, c.shared.heap[t']? = some tx₂ ∧ tx₂.writable_ = tx₁.writable_ := by
  by_cases heq : t = t'
  · subst heq
    obtain rfl := Option.some.inj (hT.self.symm.trans hget)
    exact ⟨tx₀, hT.old, hT.kind⟩
  · exact ⟨tx₁, (hT.other heq).1.symm.trans hget, rfl⟩

/-- **A line that changes the transaction it is about.** -/
theorem Sim.touch (h : Sim a c) (hT : Touches c i pc pc' a a' s' t tx₀ tx tx')
    (hread : a'.read_only_ = a.read_only_) (hinv : Inv a')
    (hreaders : ∀ t ∈ a'.txs_, ∃ tx, a'.heap[t]? = some tx ∧ tx.writable_ = false)
    (hagrees : s'.Agrees a')
    (hmmap : s'.mmaplock_.exclusive = c.shared.mmaplock_.exclusive)
    (hstat : s'.statlock_.shared = c.shared.statlock_.shared)
    (hlocks : ∀ l, s'.taken l + a.taken l + pc.holds l
      = c.shared.taken l + a'.taken l + pc'.holds l)
    (hstats : StatsSim a'.stats_ a'.txs_.length s'.stats_ (c.pcs.set i pc')) :
    Sim a' (c.took i s' pc') where
  inv := hinv
  readers := hreaders
  agrees := hagrees
  locks := h.locks_took hT.place hlocks
  mmap := hmmap.trans h.mmap
  stat := hstat.trans h.stat
  length := by
    show s'.heap.length = a'.heap.length
    rw [hT.here, hT.there, List.length_set, List.length_set, h.length]
  heap _ hno := hT.heap h hno
  closing := hT.closing_sim h
  alone := alone_next h.alone hT.place hT.next
  known := by
    have hlen : s'.heap.length = c.shared.heap.length := by rw [hT.here, List.length_set]
    exact h.known_took hT.place hT.next hlen
  owned := h.owned_took hT.place (hT.next.imp id Or.inl) fun _ _ _ hget => hT.same_kind hget
  rolling := hT.rolling h
  willing := by
    rw [hread]
    exact forall_set h.willing fun hw => by rw [hT.willing] at hw; cases hw
  stats := hstats

end

/-! ### New transactions -/

/-- A listed transaction is a reader, and nobody is closing it. -/
theorem Sim.listed_eq (h : Sim a c) {t : TxPtr} (ht : t ∈ a.txs_) :
    c.shared.heap[t]? = a.heap[t]? := by
  refine h.heap t fun pc hmem k hk heq => ?_
  obtain ⟨tx, hget, hread⟩ := h.readers t ht
  have hk := h.closing pc hmem k hk
  rw [← heq, hk.there] at hget
  cases hget
  have hwrite : k.tx.closed.writable_ = true := hk.writable
  rw [hread] at hwrite
  cases hwrite

/-- `minid` is about the listed transactions. -/
theorem freed_congr {s s' : State} {stale : TxPtr → Txid} (hf : s'.freelist_ = s.freelist_)
    (htxs : s'.txs_ = s.txs_) (hheap : ∀ t ∈ s.txs_, s'.heap[t]? = s.heap[t]?) :
    s'.freed inplace_merge stale = s.freed inplace_merge stale := by
  have hmin : s'.minid stale = s.minid stale := by
    rw [State.minid, State.minid, htxs]
    refine List.foldl_ext _ _ _ fun minid t ht => ?_
    have htxid : s'.txid stale t = s.txid stale t := by
      rw [State.txid, State.txid, hheap t ht]
    rw [htxid]
  rw [State.freed, State.freed, hmin, hf]

/-- The line creates the transaction `tx`, here and on the other side. -/
structure Appends (c : Threads) (i : Nat) (pc pc' : Pc) (a a' s' : State) (tx : Transaction) :
    Prop where
  place : c.pcs[i]? = some pc
  there : a'.heap = a.heap ++ [tx]
  here : s'.heap = c.shared.heap ++ [tx]
  before : pc.closing = none
  after : pc'.closing = none
  about : pc'.tx = some c.shared.heap.length
  rolls : pc'.rolls = none
  willing : pc'.willing = false

section

variable {a' s' : State} {t : TxPtr} {tx : Transaction}

theorem Appends.old (hA : Appends c i pc pc' a a' s' tx) (hlt : t < c.shared.heap.length) :
    s'.heap[t]? = c.shared.heap[t]? := by
  rw [hA.here, List.getElem?_append_left hlt]

theorem Appends.old' (hA : Appends c i pc pc' a a' s' tx) (hlt : t < a.heap.length) :
    a'.heap[t]? = a.heap[t]? := by
  rw [hA.there, List.getElem?_append_left hlt]

/-- The transactions that nobody is closing are the same afterwards. -/
theorem Appends.heap (h : Sim a c) (hA : Appends c i pc pc' a a' s' tx)
    (hno : ∀ pc ∈ c.pcs.set i pc', ∀ k, pc.closing = some k → k.t ≠ t) :
    s'.heap[t]? = a'.heap[t]? := by
  have hsame : ∀ pc ∈ c.pcs, ∀ k, pc.closing = some k → k.t ≠ t := by
    intro pc₀ hmem k hk
    rcases mem_set_of_mem hA.place hmem pc' with rfl | hmem
    · rw [hA.before] at hk
      cases hk
    · exact hno pc₀ hmem k hk
  rcases Nat.lt_or_ge t c.shared.heap.length with hlt | hge
  · rw [hA.old hlt, hA.old' (h.length ▸ hlt)]
    exact h.heap t hsame
  · rw [hA.here, hA.there, List.getElem?_append_right hge,
      List.getElem?_append_right (h.length ▸ hge), h.length]

/-- What is being closed stays as it is. -/
theorem Appends.closing_sim (h : Sim a c) (hA : Appends c i pc pc' a a' s' tx) :
    ∀ pc ∈ c.pcs.set i pc', ∀ k, pc.closing = some k → k.Sim a' s' := by
  refine forall_set (fun pc₀ hmem k hk => ?_) fun k hk => by rw [hA.after] at hk; cases hk
  have hk := h.closing pc₀ hmem k hk
  exact ⟨hk.grabbed, hk.writable,
    (hA.old (List.getElem?_eq_some_iff.mp hk.here).1).trans hk.here,
    (hA.old' (List.getElem?_eq_some_iff.mp hk.there).1).trans hk.there⟩

/-- Nobody has the new transaction but the thread that creates it. -/
theorem Appends.alone (h : Sim a c) (hA : Appends c i pc pc' a a' s' tx) (t : TxPtr) :
    total (Pc.works t) (c.pcs.set i pc') ≤ 1 := by
  have hset := total_set (Pc.works t) hA.place pc'
  have hle := h.alone t
  by_cases heq : t = c.shared.heap.length
  · have hnone : total (Pc.works t) c.pcs = 0 := by
      refine total_eq_zero fun pc₀ hmem => Pc.works_eq_zero fun ht => ?_
      exact absurd heq (Nat.ne_of_lt (h.known pc₀ hmem t ht))
    have hone : pc'.works t ≤ 1 := by
      rw [Pc.works]
      split <;> omega
    omega
  · have hzero : pc'.works t = 0 :=
      Pc.works_eq_zero fun ht => heq (Option.some.inj (ht.symm.trans hA.about))
    omega

theorem Appends.known (h : Sim a c) (hA : Appends c i pc pc' a a' s' tx) :
    ∀ pc ∈ c.pcs.set i pc', ∀ t, pc.tx = some t → t < s'.heap.length := by
  rw [hA.here, List.length_append, List.length_singleton]
  refine forall_set (fun pc₀ hmem t ht => ?_) fun t ht => ?_
  · exact Nat.lt_succ_of_lt (h.known pc₀ hmem t ht)
  · obtain rfl := Option.some.inj (hA.about.symm.trans ht)
    exact Nat.lt_succ_self _

theorem Appends.rolling (h : Sim a c) (hA : Appends c i pc pc' a a' s' tx) :
    ∀ pc ∈ c.pcs.set i pc', ∀ t, pc.rolls = some t →
      ∃ tx, s'.heap[t]? = some tx ∧ tx.managed_ = false := by
  refine forall_set (fun pc₀ hmem t ht => ?_) fun t ht => by rw [hA.rolls] at ht; cases ht
  obtain ⟨tx₀, hget, hm⟩ := h.rolling pc₀ hmem t ht
  exact ⟨tx₀, (hA.old (List.getElem?_eq_some_iff.mp hget).1).trans hget, hm⟩

/-- **A transaction is created on both sides.** -/
theorem Sim.append (h : Sim a c) (hA : Appends c i pc pc' a a' s' tx)
    (hread : a'.read_only_ = a.read_only_) (hinv : Inv a')
    (hreaders : ∀ t ∈ a'.txs_, ∃ tx, a'.heap[t]? = some tx ∧ tx.writable_ = false)
    (hagrees : s'.Agrees a')
    (hlocks : ∀ l, s'.taken l + a.taken l + pc.holds l
      = c.shared.taken l + a'.taken l + pc'.holds l)
    (hmmap : s'.mmaplock_ = c.shared.mmaplock_) (hstat : s'.statlock_ = c.shared.statlock_)
    (hstats : StatsSim a'.stats_ a'.txs_.length s'.stats_ (c.pcs.set i pc')) :
    Sim a' (c.took i s' pc') where
  inv := hinv
  readers := hreaders
  agrees := hagrees
  locks := h.locks_took hA.place hlocks
  mmap := (congrArg SharedMutex.exclusive hmmap).trans h.mmap
  stat := (congrArg SharedMutex.shared hstat).trans h.stat
  length := by
    show s'.heap.length = a'.heap.length
    rw [hA.here, hA.there, List.length_append, List.length_append, h.length]
  heap _ hno := hA.heap h hno
  closing := hA.closing_sim h
  alone := hA.alone h
  known := hA.known h
  owned := h.owned_took hA.place (Or.inr (Or.inr hA.about)) fun _ hlt tx' hget =>
    ⟨tx', (hA.old hlt).symm.trans hget, rfl⟩
  rolling := hA.rolling h
  willing := by
    rw [hread]
    exact forall_set h.willing fun hw => by rw [hA.willing] at hw; cases hw
  stats := hstats

end

end

end BoltCpp
