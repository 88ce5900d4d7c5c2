/-
BoltCpp/Readers.lean

Readers and the pages they can see.

`begin(true)` releases the pages that were freed by transactions older than
every reader that is listed.  Since open readers are always listed, no page
is recycled while a reader may still look at it (`no_recycling`).

Closed readers are to leave the list and to give back their share of
`mmaplock_`, and `remove_tx` does neither.  So the books are in order exactly
as long as no reader is closed (`bookkept_iff`).
-/
import BoltCpp.Transactions

namespace BoltCpp

open Locks RangeMerge

variable {inplace_merge : Merge Pgid} {s : State}

/-! ### What a writer releases -/

/-- Pages pending under `k` are due: `k` is below the id of every listed
transaction, or below the largest id if there is none. -/
def State.Due (s : State) (stale : TxPtr → Txid) (k : Txid) : Prop :=
  if s.txs_ = [] then k < 0xFFFFFFFFFFFFFFFF else ∀ t ∈ s.txs_, k < s.txid stale t

instance dueDecidable (s : State) (stale : TxPtr → Txid) (k : Txid) :
    Decidable (s.Due stale k) :=
  inferInstanceAs (Decidable (ite _ _ _))

/-- A loop that keeps the least value. -/
theorem lt_foldl_min_iff {α : Type} (f : α → Txid) (k : Txid) (xs : List α) (least : Txid) :
    k < xs.foldl (fun least x => if f x < least then f x else least) least ↔
      k < least ∧ ∀ x ∈ xs, k < f x := by
  induction xs generalizing least with
  | nil => simp
  | cons x xs ih =>
      rw [List.foldl_cons, ih, List.forall_mem_cons]
      by_cases hx : f x < least
      · rw [if_pos hx]
        exact ⟨fun h => ⟨h.1.trans hx, h⟩, fun h => h.2⟩
      · rw [if_neg hx]
        exact ⟨fun h => ⟨h.1, lt_of_lt_of_le h.1 (not_lt.mp hx), h.2⟩,
          fun h => ⟨h.1, h.2.2⟩⟩

theorem le_txid_max (k : Txid) : k ≤ 0xFFFFFFFFFFFFFFFF := by
  rw [UInt64.le_iff_toNat_le]
  have := k.toNat_lt
  have hmax : (0xFFFFFFFFFFFFFFFF : UInt64).toNat = 2 ^ 64 - 1 := rfl
  omega

/-- The sentinel of the loop does not matter where there are readers. -/
theorem lt_minid_iff (stale : TxPtr → Txid) (k : Txid) :
    k < s.minid stale ↔ s.Due stale k := by
  rw [State.minid, lt_foldl_min_iff, State.Due]
  rcases htxs : s.txs_ with - | ⟨t, txs⟩
  · simp
  · rw [if_neg (List.cons_ne_nil t txs)]
    refine ⟨fun h => h.2, fun h => ⟨?_, h⟩⟩
    exact lt_of_lt_of_le (h t List.mem_cons_self) (le_txid_max _)

/-- `minid - 1` does not wrap where it is computed. -/
theorem le_pred_iff {minid k : Txid} (h : minid > 0) : k ≤ minid - 1 ↔ k < minid := by
  have hpos : 0 < minid.toNat := UInt64.lt_iff_toNat_lt.mp h
  have hone : (1 : UInt64) ≤ minid := by
    rw [UInt64.le_iff_toNat_le]
    exact hpos
  rw [UInt64.le_iff_toNat_le, UInt64.lt_iff_toNat_lt, UInt64.toNat_sub_of_le _ _ hone]
  have h1 : (1 : UInt64).toNat = 1 := rfl
  omega

/-- **What `begin(true)` releases.** -/
theorem freed_spec (hm : Permutes inplace_merge) (s : State) (stale : TxPtr → Txid) :
    (s.freed inplace_merge stale).pending
        = s.freelist_.pending.under (fun k => !decide (s.Due stale k)) ∧
      (s.freed inplace_merge stale).ids.Perm
        (s.freelist_.ids ++ (s.freelist_.pending.under fun k => s.Due stale k).ids) := by
  rw [State.freed]
  by_cases hpos : s.minid stale > 0
  · have hdue : ∀ k, decide (k ≤ s.minid stale - 1) = decide (s.Due stale k) := fun k => by
      rw [decide_eq_decide, le_pred_iff hpos, lt_minid_iff]
    rw [if_pos hpos, FreeList.release_pending, FreeList.release_ids]
    simp only [hdue]
    exact ⟨trivial, hm _ _⟩
  · -- a reader at 0 sees every page that is pending
    have hdue : ∀ k, decide (s.Due stale k) = false := fun k => by
      rw [decide_eq_false_iff_not, ← lt_minid_iff]
      intro hk
      rw [UInt64.lt_iff_toNat_lt] at hk
      rw [gt_iff_lt, UInt64.lt_iff_toNat_lt] at hpos
      have h0 : (0 : UInt64).toNat = 0 := rfl
      omega
    rw [if_neg hpos]
    simp only [hdue]
    refine ⟨Pending.ext (by simp), ?_⟩
    simp [Pending.ids, Pending.idsOf]

theorem begin_writer_ok (hq : Quiet s) {new : NewTx} {stale : TxPtr → Txid} {t : TxPtr}
    {s' : State} (h : DB.begin inplace_merge true new stale s = .ok t s') :
    s' = s.withWriter inplace_merge new stale := by
  have heq : DB.begin inplace_merge true new stale s = DB.begin_rwtx inplace_merge new stale s :=
    rfl
  rw [heq, begin_rwtx_eq hq] at h
  split at h
  · cases h
  split at h
  · cases h
  split at h
  · cases h
  · cases h
    rfl

/-- An open reader keeps the pages pending under its id and later ones. -/
theorem not_due_of_reader (hi : Inv s) {t : TxPtr} {tx : Transaction} {m : Meta}
    (ht : s.heap[t]? = some tx) (ho : tx.IsOpen false) (hmeta : tx.meta_ = some m)
    (stale : TxPtr → Txid) {k : Txid} (hk : m.txid ≤ k) : ¬ s.Due stale k := by
  have hlisted : t ∈ s.txs_ := hi.reader t ⟨tx, ht, ho⟩
  have htxid : s.txid stale t = m.txid := by
    rw [State.txid, ht, Option.bind_some, hmeta]
  rw [State.Due, if_neg (List.ne_nil_of_mem hlisted)]
  intro h
  have := h t hlisted
  rw [htxid] at this
  exact absurd hk (not_le.mpr this)

/-- **No page is recycled under a reader.**  Whenever `begin(true)` succeeds
it moves to the free ids exactly the pages that are due and leaves every
other pending entry in place.  No other call moves pages, so whatever is
called, an entry whose key is not below the id of an open reader stays
pending. -/
theorem no_recycling (hm : Permutes inplace_merge) (hr : Reachable inplace_merge s) :
    (∀ new stale t s', DB.begin inplace_merge true new stale s = .ok t s' →
      s'.freelist_.pending.entries
          = s.freelist_.pending.entries.filter (fun e => ¬ s.Due stale e.1) ∧
        s'.freelist_.ids.Perm (s.freelist_.ids
          ++ (s.freelist_.pending.entries.filter fun e => s.Due stale e.1).flatMap Prod.snd)) ∧
    (∀ e : Event, (∀ pending, e ≠ .free pending) →
      (∀ new stale, e ≠ .begin true new stale) →
        (step inplace_merge s e).freelist_ = s.freelist_) ∧
    (∀ (e : Event) (t : TxPtr) (tx : Transaction) (m : Meta) (entry : Txid × List Pgid),
      (∀ pending, e ≠ .free pending) → s.heap[t]? = some tx → tx.IsOpen false →
        tx.meta_ = some m → m.txid ≤ entry.1 → entry ∈ s.freelist_.pending.entries →
          entry ∈ (step inplace_merge s e).freelist_.pending.entries) := by
  have hi := hr.inv
  refine ⟨fun new stale t s' hbegin => ?_, fun e hfree hwriter => ?_,
    fun e t tx m entry hfree ht ho hmeta hle hmem => ?_⟩
  · obtain ⟨hpending, hids⟩ := freed_spec hm s stale
    rw [begin_writer_ok hi.toQuiet hbegin]
    refine ⟨?_, hids⟩
    rw [State.withWriter, hpending, Pending.entries_under]
    simp only [← decide_not]
  · have hdid := step_did inplace_merge hi e
    generalize step inplace_merge s e = s' at hdid
    cases hdid with
    | nothing => rfl
    | reader => rfl
    | writer => exact absurd rfl (hwriter _ _)
    | closedReader => rfl
    | closedWriter => rfl
    | freed => exact absurd rfl (hfree _)
  · have hdid := step_did inplace_merge hi e
    generalize step inplace_merge s e = s' at hdid
    cases hdid with
    | nothing => exact hmem
    | reader => exact hmem
    | @writer new stale =>
        rw [State.withWriter, (freed_spec hm s stale).1, Pending.entries_under,
          List.mem_filter]
        exact ⟨hmem, by simpa using not_due_of_reader hi ht ho hmeta stale hle⟩
    | closedReader => exact hmem
    | closedWriter => exact hmem
    | freed => exact absurd rfl (hfree _)

/-- A database without transactions, whose map of pending pages is given. -/
def idleState (pending : Pending) : State where
  data_ := 65536
  pageSize_ := 4096
  opened_ := false
  read_only_ := false
  page_size_ := 4096
  data_sz_ := 16384
  rwtx_ := none
  txs_ := []
  freelist_ := ⟨[3], pending, ∅⟩
  stats_ := ⟨0, 0, 0, 0, 0, 0, ⟨0, 0, 0, 0, 0, 0, 0, 0, 0, 0, 0, 0⟩⟩
  page_pool_ := ⟨4096⟩
  rwlock_ := ⟨false⟩
  metalock_ := ⟨false⟩
  mmaplock_ := .free
  statlock_ := .free
  heap := []

theorem fresh_idleState (pending : Pending) : Fresh (idleState pending) :=
  ⟨rfl, rfl, rfl, rfl, rfl, rfl⟩

/-- A transaction on the snapshot with the given id. -/
def sampleNewTx (txid : Txid) : NewTx where
  snapshot := ⟨Magic, Version, 4096, 0, 8192, 2, 4, txid, 0⟩
  managed_ := false
  stats_ := ⟨0, 0, 0, 0, 0, 0, 0, 0, 0, 0, 0, 0⟩

/-- With a reader at 2, a writer gets page 7 only. -/
theorem no_recycling_sample :
    ∃ t s', DB.begin merge true (sampleNewTx 3) (fun _ => 0)
        (run merge (idleState .sample) [.begin false (sampleNewTx 2) fun _ => 0])
          = .ok t s' ∧
      s'.freelist_.pending.entries = [(2, [4])] ∧ s'.freelist_.ids.Perm [3, 7] :=
  ⟨_, _, rfl, (no_recycling merge_merges.permutes
    ⟨_, [.begin false (sampleNewTx 2) fun _ => 0], fresh_idleState .sample, rfl⟩).1
      (sampleNewTx 3) (fun _ => 0) _ _ rfl⟩

/-! ### Bookkeeping -/

/-- The number of open readers. -/
def State.openReaders (s : State) : Nat :=
  s.heap.countP fun tx => tx.db_.isSome && !tx.writable_

/-- The books are in order.  `idle` is what that is good for: without
readers the mapping can be locked, and a writer gets every pending page. -/
structure Bookkept (inplace_merge : Merge Pgid) (s : State) : Prop where
  nodup : s.txs_.Nodup
  listed : ∀ t, t ∈ s.txs_ ↔ s.Open false t
  holds : s.mmaplock_.shared = s.openReaders
  idle : (∀ t, ¬ s.Open false t) → s.mmaplock_.lock.isSome = true ∧
    ∀ new stale t s', DB.begin inplace_merge true new stale s = .ok t s' →
      ∀ entry ∈ s'.freelist_.pending.entries, ¬ entry.1 < 0xFFFFFFFFFFFFFFFF

/-- `rollback` of an open reader. -/
def ClosesReader (s : State) : Event → Prop
  | .rollback _ t => ∃ tx, s.heap[t]? = some tx ∧ tx.IsOpen false ∧ tx.managed_ = false
  | _ => False

theorem openReaders_eq_zero (h : ∀ t, ¬ s.Open false t) : s.openReaders = 0 := by
  rw [State.openReaders, List.countP_eq_zero]
  intro tx hmem hopen
  obtain ⟨t, ht⟩ := List.mem_iff_getElem?.mp hmem
  simp only [Bool.and_eq_true, Bool.not_eq_true'] at hopen
  exact h t ⟨tx, ht, hopen.1, hopen.2⟩

/-- The list, the count and the absence of readers settle the rest. -/
theorem bookkept_of (hm : Permutes inplace_merge) (hi : Inv s) (hnodup : s.txs_.Nodup)
    (hlisted : ∀ t, t ∈ s.txs_ ↔ s.Open false t)
    (hholds : s.mmaplock_.shared = s.openReaders) : Bookkept inplace_merge s := by
  refine ⟨hnodup, hlisted, hholds, fun hnone => ⟨?_, fun new stale t s' hbegin => ?_⟩⟩
  · rw [SharedMutex.isSome_lock_iff, hholds, openReaders_eq_zero hnone]
    exact ⟨hi.mmaplock, rfl⟩
  · have htxs : s.txs_ = [] :=
      List.eq_nil_iff_forall_not_mem.mpr fun t ht => hnone t ((hlisted t).mp ht)
    intro entry hentry
    rw [begin_writer_ok hi.toQuiet hbegin, State.withWriter, (freed_spec hm s stale).1,
      Pending.entries_under, List.mem_filter] at hentry
    simpa [State.Due, htxs] using hentry.2

theorem bookkept_fresh (hm : Permutes inplace_merge) (h : Fresh s) :
    Bookkept inplace_merge s := by
  have hnone : ∀ t, ¬ s.Open false t := by
    rintro t ⟨tx, ht, -⟩
    rw [h.heap] at ht
    cases ht
  refine bookkept_of hm h.inv (by rw [h.txs]; exact List.nodup_nil) (fun t => ?_) ?_
  · rw [h.txs]
    exact ⟨fun ht => (by cases ht), fun ho => absurd ho (hnone t)⟩
  · rw [openReaders_eq_zero hnone, h.mmaplock]
    rfl

/-- Closing a transaction that is not an open reader does not change the
count. -/
theorem openReaders_set {t : TxPtr} {tx : Transaction} (ht : s.heap[t]? = some tx)
    (ho : tx.IsOpen true) {s' : State} (h : s'.heap = s.heap.set t tx.closed) :
    s'.openReaders = s.openReaders := by
  obtain ⟨hlt, rfl⟩ := List.getElem?_eq_some_iff.mp ht
  rw [State.openReaders, State.openReaders, h, List.countP_set hlt]
  simp [Transaction.closed, ho.kind]

theorem openReaders_append (tx : Transaction) {s' : State} (h : s'.heap = s.heap ++ [tx]) :
    s'.openReaders = s.openReaders + if tx.db_.isSome && !tx.writable_ then 1 else 0 := by
  rw [State.openReaders, h, List.countP_append, List.countP_singleton]
  rfl

/-- Closing a reader leaves it on the list. -/
theorem not_bookkept_withoutReader (hb : Bookkept inplace_merge s) {t : TxPtr}
    {tx : Transaction} (ht : s.heap[t]? = some tx) (ho : tx.IsOpen false) :
    ¬ Bookkept inplace_merge (s.withoutReader t tx) := by
  intro hb'
  have hmem : t ∈ s.txs_ := (hb.listed t).mpr ⟨tx, ht, ho⟩
  exact ((open_set rfl).mp ((hb'.listed t).mp hmem)).1 rfl

theorem bookkept_withReader (hm : Permutes inplace_merge) (hi : Inv s)
    (hb : Bookkept inplace_merge s) (new : NewTx) :
    Bookkept inplace_merge (s.withReader new) := by
  have hcount : (s.withReader new).openReaders = s.openReaders + 1 :=
    openReaders_append (Tx.construct s.toDB false new) rfl
  refine bookkept_of hm (inv_withReader hi new) ?_ (fun t => ?_) ?_
  · -- the new pointer is not that of an older transaction
    refine List.nodup_append.mpr ⟨hb.nodup, List.nodup_singleton _, ?_⟩
    intro t ht t' ht' heq
    rw [List.mem_singleton.mp ht'] at heq
    exact absurd heq (Nat.ne_of_lt (hi.txs t ht))
  · rw [open_append rfl, isOpen_construct, ← hb.listed t]
    simp [State.withReader]
  · rw [hcount, ← hb.holds]
    rfl

theorem bookkept_withWriter (hm : Permutes inplace_merge) (hi : Inv s)
    (hb : Bookkept inplace_merge s) (hrw : s.rwlock_ = ⟨false⟩) (new : NewTx)
    (stale : TxPtr → Txid) : Bookkept inplace_merge (s.withWriter inplace_merge new stale) := by
  have hcount : (s.withWriter inplace_merge new stale).openReaders = s.openReaders :=
    openReaders_append (Tx.construct s.toDB true new) rfl
  refine bookkept_of hm (inv_withWriter hi hrw new stale) hb.nodup (fun t => ?_) ?_
  · rw [open_append rfl, isOpen_construct, ← hb.listed t]
    simp [State.withWriter]
  · rw [hcount, ← hb.holds]
    rfl

theorem bookkept_withoutWriter (hm : Permutes inplace_merge) (hi : Inv s)
    (hb : Bookkept inplace_merge s) {t : TxPtr} {tx : Transaction} (ht : s.heap[t]? = some tx)
    (ho : tx.IsOpen true) : Bookkept inplace_merge (s.withoutWriter t tx) := by
  refine bookkept_of hm (inv_withoutWriter hi ⟨tx, ht, ho⟩ tx) hb.nodup (fun t' => ?_) ?_
  · rw [open_set rfl]
    refine ⟨fun hmem => ⟨?_, (hb.listed t').mp hmem⟩, fun h => (hb.listed t').mpr h.2⟩
    -- a listed transaction is a reader, so it is not the one that is closed
    rintro rfl
    obtain ⟨tx', ht', ho'⟩ := (hb.listed t').mp hmem
    rw [ht] at ht'
    obtain rfl := Option.some.inj ht'
    exact absurd (ho.kind.symm.trans ho'.kind) (by decide)
  · rw [openReaders_set ht ho rfl, ← hb.holds]
    rfl

/-- **A step keeps the books exactly when it does not close a reader.** -/
theorem bookkept_step_iff (hm : Permutes inplace_merge) (hi : Inv s)
    (hb : Bookkept inplace_merge s) (e : Event) :
    Bookkept inplace_merge (step inplace_merge s e) ↔ ¬ ClosesReader s e := by
  constructor
  · intro hb' hcloses
    cases e with
    | begin => exact hcloses
    | free => exact hcloses
    | rollback snapshot t =>
        obtain ⟨tx, ht, ho, hmanaged⟩ := hcloses
        have hstep : step inplace_merge s (.rollback snapshot t) = s.withoutReader t tx := by
          rw [step, rollback_reader ht hmanaged ho]
          rfl
        rw [hstep] at hb'
        exact not_bookkept_withoutReader hb ht ho hb'
  · intro hcloses
    have hdid := step_did inplace_merge hi e
    generalize step inplace_merge s e = s' at hdid
    cases hdid with
    | nothing => exact hb
    | reader => exact bookkept_withReader hm hi hb _
    | writer hrw => exact bookkept_withWriter hm hi hb hrw _ _
    | closedReader ht hmanaged ho => exact absurd ⟨_, ht, ho, hmanaged⟩ hcloses
    | closedWriter ht _ ho => exact bookkept_withoutWriter hm hi hb ht ho
    | freed =>
        exact bookkept_of hm ⟨⟨hi.metalock, hi.mmaplock, hi.statlock, hi.txs⟩, hi.snapshot,
          hi.reader, hi.writer⟩ hb.nodup hb.listed hb.holds

/-- **When the books stay in order.**  In a run from a fresh database, `txs_`
lists exactly the open readers and `mmaplock_` has one share for each, after
every step, exactly when no step closes a reader. -/
theorem bookkept_iff (hm : Permutes inplace_merge) {s₀ : State} (h₀ : Fresh s₀)
    (events : List Event) :
    Runs.Always (step inplace_merge) (Bookkept inplace_merge) s₀ events ↔
      Runs.Meets (step inplace_merge) (fun s e => ¬ ClosesReader s e) s₀ events :=
  Runs.always_iff (I := Inv) (P := Bookkept inplace_merge) (fun _ e hi => inv_step hi e)
    (fun _ e hi hb => bookkept_step_iff hm hi hb e) events h₀.inv (bookkept_fresh hm h₀)

/-- A reader, and a writer that comes and goes. -/
theorem bookkept_sample :
    Runs.Always (step merge) (Bookkept merge) (idleState .sample)
      [.begin false (sampleNewTx 2) fun _ => 0, .begin true (sampleNewTx 3) fun _ => 0,
        .rollback (sampleNewTx 3).snapshot 1] := by
  refine (bookkept_iff merge_merges.permutes (fresh_idleState .sample) _).mpr ?_
  refine Runs.meets_cons.mpr ⟨id, Runs.meets_cons.mpr ⟨id, Runs.meets_cons.mpr ⟨?_, ?_⟩⟩⟩
  · rintro ⟨tx, ht, ho, -⟩
    cases ht
    exact absurd ho.kind (by decide)
  · exact fun _ _ h => by cases h

/-- A reader that is closed stays on the list and keeps its share of the
lock. -/
theorem closed_reader_listed :
    (∃ s, s = run merge (idleState .sample)
        [.begin false (sampleNewTx 2) fun _ => 0, .rollback (sampleNewTx 2).snapshot 0] ∧
      s.txs_ = [0] ∧ s.openReaders = 0 ∧ s.mmaplock_.lock = none) ∧
      ¬ Runs.Always (step merge) (Bookkept merge) (idleState .sample)
        [.begin false (sampleNewTx 2) fun _ => 0, .rollback (sampleNewTx 2).snapshot 0] := by
  refine ⟨⟨_, rfl, rfl, rfl, rfl⟩, fun h => ?_⟩
  exact absurd (h 2).holds (by decide)

end BoltCpp
