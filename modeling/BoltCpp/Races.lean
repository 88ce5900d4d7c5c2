/-
BoltCpp/Races.lean

Which fields two threads use at the same time.

`Pc.writes` and `Pc.reads` say what the next line of a call does with the
fields that are ever written, and `line_frame` that it writes no other.  Two
threads race when both are about to use a field and one of them writes it.
The locks rule out all races but two (`races_iff`): `begin_tx` reads the
length of `txs_` under `statlock_`, while it is extended under `metalock_`;
and `begin_rwtx` reads the meta pages of the listed readers, while `close`
clears a reader under no lock at all.
-/
import BoltCpp.Linearizable

namespace BoltCpp

open Crowd Locks RangeMerge

/-- The fields of a `DB` that calls write, and the transactions. -/
inductive Field where
  | rwtx
  | txs
  | freelist
  | stats
  | tx (t : TxPtr)

namespace Pc

/-- The fields the next line writes. -/
def writes (s : State) : Pc → Field → Prop
  | readBody _, .txs => s.opened_ = false
  | readCount _, .stats => True
  | writeBody _ _, .rwtx => s.opened_ = false
  | writeBody _ _, .freelist => s.opened_ = false
  | rollBody _ t, .rwtx => s.Open true t
  | rollBody _ t, .freelist => s.Open true t
  | rollBody _ t, .tx t' => t' = t ∧ s.Open false t
  | closeMerge _, .stats => True
  | closeClear k, .tx t => t = k.t
  | _, _ => False

/-- The fields the next line reads. -/
def reads (s : State) : Pc → Field → Prop
  | readBody _, .txs => s.opened_ = false
  | readCount _, .stats => True
  | readCount _, .txs => True
  | writeBody _ _, .txs => s.opened_ = false
  | writeBody _ _, .freelist => s.opened_ = false
  | writeBody _ _, .tx t => s.opened_ = false ∧ t ∈ s.txs_
  | rollBody _ t, .freelist => s.Open true t
  | rollBody _ t, .tx t' => t' = t
  | closeMerge _, .stats => True
  | closeMerge k, .tx t => t = k.t
  | closeClear k, .tx t => t = k.t
  | _, _ => False

end Pc

/-- Two states have the same in a field. -/
def SameField (s s' : State) : Field → Prop
  | .rwtx => s'.rwtx_ = s.rwtx_
  | .txs => s'.txs_ = s.txs_
  | .freelist => s'.freelist_ = s.freelist_
  | .stats => s'.stats_ = s.stats_
  | .tx t => t < s.heap.length → s'.heap[t]? = s.heap[t]?

section

variable {inplace_merge : Merge Pgid} {s s' : State} {pc pc' : Pc} {f : Field}

theorem SameField.refl (s : State) (f : Field) : SameField s s f := by
  cases f <;> first | rfl | exact fun _ => rfl

theorem SameField.of_lockStep (h : LockStep s s') (f : Field) : SameField s s' f := by
  cases f with
  | rwtx => exact (congrArg (fun s : State => s.rwtx_) h.same :)
  | txs => exact (congrArg (fun s : State => s.txs_) h.same :)
  | freelist => exact (congrArg (fun s : State => s.freelist_) h.same :)
  | stats => exact h.stats
  | tx t => exact fun _ => by rw [h.heap]

/-- `rollback` changes the writer's fields of an open writer, and an open
reader. -/
theorem rollBody_frame {snapshot : Meta} {t : TxPtr}
    (hline : Pc.line inplace_merge (.rollBody snapshot t) s = .ok pc' s')
    (hf : ¬ Pc.writes s (.rollBody snapshot t) f) : SameField s s' f := by
  rcases ht : s.heap[t]? with - | tx
  · have hderef : Tx.deref t s = .error (.fault .nullDeref) s := by rw [Tx.deref, ht]
    cases (bind_error hderef).symm.trans hline
  rcases hm : tx.managed_ with - | -
  · rcases hdb : tx.db_ with - | db
    · cases (rollBody_closed ht hm hdb).symm.trans hline
      exact .refl s f
    have hopen : tx.db_.isSome = true := by rw [hdb]; rfl
    rcases hw : tx.writable_ with - | -
    · have ho : tx.IsOpen false := ⟨hopen, hw⟩
      cases (rollBody_reader ht hm ho).symm.trans hline
      cases f with
      | tx t' =>
          intro _
          refine List.getElem?_set_ne fun heq => hf ⟨heq.symm, tx, ht, ho⟩
      | _ => rfl
    · have ho : tx.IsOpen true := ⟨hopen, hw⟩
      rcases hmeta : tx.meta_ with - | m
      · rw [Pc.line, bind_ok (deref_eq ht), hm, hdb, hw, hmeta] at hline
        cases hline
      · cases (rollBody_writer ht hm ho (by rw [hmeta]; rfl)).symm.trans hline
        cases f with
        | rwtx => exact absurd ⟨tx, ht, ho⟩ hf
        | tx => exact fun _ => rfl
        | _ => rfl
  · rw [Pc.line, bind_ok (deref_eq ht), hm] at hline
    cases hline

/-- **A line writes the fields it is said to write, and no other.** -/
theorem line_frame (hline : pc.line inplace_merge s = .ok pc' s') (hf : ¬ pc.writes s f) :
    SameField s s' f := by
  rcases hwants : pc.wants with - | l
  · rcases hgives : pc.gives with - | l
    · cases pc with
      | idle => cases hline
      | readBody new =>
          rw [readBody_eq] at hline
          split at hline
          · cases hline
            exact .refl s f
          · rename_i hopened
            cases hline
            cases f with
            | txs => exact absurd (Bool.eq_false_of_not_eq_true hopened) hf
            | tx t => exact fun hlt => List.getElem?_append_left hlt
            | _ => rfl
      | readCount =>
          cases hline
          cases f with
          | stats => exact absurd trivial hf
          | tx => exact fun _ => rfl
          | _ => rfl
      | writeTest new stale =>
          rw [writeTest_eq] at hline
          split at hline <;> cases hline <;> exact .refl s f
      | writeBody new stale =>
          rw [writeBody_eq] at hline
          split at hline
          · cases hline
            exact .refl s f
          · rename_i hopened
            have ho := Bool.eq_false_of_not_eq_true hopened
            cases hline
            cases f with
            | rwtx => exact absurd ho hf
            | freelist => exact absurd ho hf
            | tx t => exact fun hlt => List.getElem?_append_left hlt
            | _ => rfl
      | rollBody => exact rollBody_frame hline hf
      | closeMerge =>
          cases hline
          cases f with
          | stats => exact absurd trivial hf
          | tx => exact fun _ => rfl
          | _ => rfl
      | closeClear k =>
          cases hline
          cases f with
          | tx t => exact fun _ => List.getElem?_set_ne fun heq => hf heq.symm
          | _ => rfl
      | _ => first | (cases hwants; done) | cases hgives
    · obtain ⟨pc₁, hseq, -⟩ := Pc.line_of_gives inplace_merge hgives
      rw [hseq] at hline
      rcases hgive : l.give s with ⟨u, s₁⟩ | ⟨stop, s₁⟩
      · cases (bind_ok hgive).symm.trans hline
        exact .of_lockStep (give_ok hgive).1 f
      · cases (bind_error hgive).symm.trans hline
  · obtain ⟨pc₁, hseq, -⟩ := Pc.line_of_wants inplace_merge hwants
    rw [hseq] at hline
    rcases htake : l.take s with ⟨u, s₁⟩ | ⟨stop, s₁⟩
    · cases (bind_ok htake).symm.trans hline
      exact .of_lockStep (take_ok htake).1 f
    · cases (bind_error htake).symm.trans hline

end

/-! ### Races -/

/-- Thread `i` is about to write a field that thread `j` is about to use. -/
structure Race (c : Threads) (i j : Nat) (f : Field) : Prop where
  ne : i ≠ j
  writes : ∃ pc, c.pcs[i]? = some pc ∧ pc.writes c.shared f
  uses : ∃ pc, c.pcs[j]? = some pc ∧ (pc.writes c.shared f ∨ pc.reads c.shared f)

section

variable {inplace_merge : Merge Pgid} {s a : State} {c : Threads} {i j : Nat} {pc pc' : Pc}

/-- A lock that is not shared is with one thread. -/
theorem Sim.apart (h : Sim a c) (hne : i ≠ j) (hi : c.pcs[i]? = some pc)
    (hj : c.pcs[j]? = some pc') (l : Lock) (hl : l ≠ .mmaplock) (hpc : 0 < pc.holds l)
    (hpc' : 0 < pc'.holds l) : False := by
  have htwo := add_le_total (f := fun pc : Pc => pc.holds l) hne hi hj
  have hlocks := h.locks l
  have hone : c.shared.taken l ≤ 1 := by
    cases l with
    | mmaplock => exact absurd rfl hl
    | _ => exact Bool.toNat_le _
  omega

/-- A transaction has one call at most that is about it. -/
theorem Sim.distinct (h : Sim a c) (hne : i ≠ j) (hi : c.pcs[i]? = some pc)
    (hj : c.pcs[j]? = some pc') {t : TxPtr} (ht : pc.tx = some t) (ht' : pc'.tx = some t) :
    False := by
  have htwo := add_le_total (f := Pc.works t) hne hi hj
  have hone := h.alone t
  rw [Pc.works_eq_one ht, Pc.works_eq_one ht'] at htwo
  omega

/-- The call works on the fields of the writer. -/
def AsWriter (s : State) (pc : Pc) : Prop :=
  (∃ new stale, pc = .writeBody new stale) ∨
    ∃ snapshot t, pc = .rollBody snapshot t ∧ s.Open true t

theorem Sim.open_eq (h : Sim a c) {snapshot : Meta} {t : TxPtr} {w : Bool}
    (hi : c.pcs[i]? = some (.rollBody snapshot t)) : c.shared.Open w t ↔ a.Open w t := by
  rw [State.Open, State.Open, h.here_eq hi rfl rfl]

/-- **One call at most works on the fields of the writer.** -/
theorem Sim.one_writer (h : Sim a c) (hne : i ≠ j) (hi : c.pcs[i]? = some pc)
    (hj : c.pcs[j]? = some pc') (hpc : AsWriter c.shared pc) (hpc' : AsWriter c.shared pc') :
    False := by
  have hclash : ∀ {i j : Nat} {pc : Pc} {snapshot : Meta} {t : TxPtr}, c.pcs[i]? = some pc →
      pc.holds .rwlock = 1 → c.pcs[j]? = some (.rollBody snapshot t) → c.shared.Open true t →
      False := by
    intro i j pc snapshot t hi hholds hj ho
    have hheld := (h.inv.writer t ((h.open_eq hj).mp ho)).1
    rw [h.rwlock_free (List.mem_of_getElem? hi) hholds] at hheld
    cases hheld
  rcases hpc with ⟨new, stale, rfl⟩ | ⟨snapshot, t, rfl, ho⟩ <;>
    rcases hpc' with ⟨new', stale', rfl⟩ | ⟨snapshot', t', rfl, ho'⟩
  · exact h.apart hne hi hj .rwlock (fun hl => by cases hl) Nat.one_pos Nat.one_pos
  · exact hclash hi rfl hj ho'
  · exact hclash hj rfl hi ho
  · -- `rwtx_` is both
    have hrwtx := (h.inv.writer t ((h.open_eq hi).mp ho)).2
    have hrwtx' := (h.inv.writer t' ((h.open_eq hj).mp ho')).2
    obtain rfl := Option.some.inj (hrwtx.symm.trans hrwtx')
    exact h.distinct hne hi hj rfl rfl

/-- Two threads use the length of `txs_`, and the meta page of a reader. -/
inductive Races (c : Threads) (i j : Nat) : Field → Prop
  | txs {new t} (hi : c.pcs[i]? = some (.readBody new)) (hj : c.pcs[j]? = some (.readCount t))
      (hopened : c.shared.opened_ = false) : Races c i j .txs
  | reader {snapshot t new stale} (hi : c.pcs[i]? = some (.rollBody snapshot t))
      (hj : c.pcs[j]? = some (.writeBody new stale)) (hopened : c.shared.opened_ = false)
      (ho : c.shared.Open false t) : Races c i j (.tx t)

theorem Sim.race_txs (h : Sim a c) (hr : Race c i j .txs) : Races c i j .txs := by
  obtain ⟨hne, ⟨pc, hi, hw⟩, ⟨pc', hj, hu⟩⟩ := hr
  obtain ⟨new, rfl⟩ : ∃ new, pc = .readBody new := by
    cases pc <;> first | exact ⟨_, rfl⟩ | cases hw
  have hapart : pc'.holds .metalock = 1 → False := fun hholds =>
    h.apart hne hi hj .metalock (fun hl => by cases hl) Nat.one_pos (by omega)
  cases pc' with
  | readBody => exact absurd rfl hapart
  | writeBody => exact absurd rfl hapart
  | readCount t => exact .txs hi hj hw
  | _ => rcases hu with hu | hu <;> cases hu

/-- Who writes a field of the writer, or reads one, works on them. -/
theorem asWriter_of_uses {f : Field} (hf : f = .rwtx ∨ f = .freelist)
    (hu : pc.writes s f ∨ pc.reads s f) : AsWriter s pc := by
  cases pc with
  | writeBody new stale => exact Or.inl ⟨new, stale, rfl⟩
  | rollBody snapshot t =>
      refine Or.inr ⟨snapshot, t, rfl, ?_⟩
      rcases hf with rfl | rfl <;> rcases hu with hu | hu <;> first | exact hu | cases hu
  | _ => rcases hf with rfl | rfl <;> rcases hu with hu | hu <;> cases hu

theorem Sim.not_race_writer (h : Sim a c) {f : Field} (hf : f = .rwtx ∨ f = .freelist)
    (hr : Race c i j f) : False := by
  obtain ⟨hne, ⟨pc, hi, hw⟩, ⟨pc', hj, hu⟩⟩ := hr
  exact h.one_writer hne hi hj (asWriter_of_uses hf (Or.inl hw)) (asWriter_of_uses hf hu)

theorem Sim.not_race_stats (h : Sim a c) (hr : Race c i j .stats) : False := by
  obtain ⟨hne, ⟨pc, hi, hw⟩, ⟨pc', hj, hu⟩⟩ := hr
  have hholds : ∀ {pc : Pc}, pc.writes c.shared .stats ∨ pc.reads c.shared .stats →
      0 < pc.holds .statlock := by
    intro pc hu
    cases pc <;> first | exact Nat.one_pos | (rcases hu with hu | hu <;> cases hu)
  exact h.apart hne hi hj .statlock (fun hl => by cases hl) (hholds (Or.inl hw)) (hholds hu)

theorem Sim.race_tx (h : Sim a c) {t : TxPtr} (hr : Race c i j (.tx t)) :
    Races c i j (.tx t) := by
  obtain ⟨hne, ⟨pc, hi, hw⟩, ⟨pc', hj, hu⟩⟩ := hr
  have htx : pc.tx = some t := by
    cases pc with
    | rollBody => exact congrArg some hw.1.symm
    | closeClear => exact congrArg some hw.symm
    | _ => cases hw
  have hother : pc'.tx = some t → False := h.distinct hne hi hj htx
  cases pc' with
  | rollBody =>
      rcases hu with hu | hu
      · exact absurd (congrArg some hu.1.symm) hother
      · exact absurd (congrArg some hu.symm) hother
  | closeMerge =>
      rcases hu with hu | hu
      · cases hu
      · exact absurd (congrArg some hu.symm) hother
  | closeClear => rcases hu with hu | hu <;> exact absurd (congrArg some hu.symm) hother
  | writeBody new stale =>
      rcases hu with hu | ⟨hopened, hlisted⟩
      · cases hu
      cases pc with
      | rollBody snapshot t' =>
          obtain ⟨rfl, ho⟩ := hw
          exact .reader hi hj hopened ho
      | closeClear k =>
          -- a listed transaction is a reader
          obtain rfl := hw
          rw [h.agrees.txs] at hlisted
          obtain ⟨tx, hget, hread⟩ := h.readers k.t hlisted
          have hk := h.closing _ (List.mem_of_getElem? hi) k rfl
          rw [hk.there] at hget
          cases hget
          cases hread.symm.trans hk.writable
      | _ => cases hw
  | _ => rcases hu with hu | hu <;> cases hu

/-- **The races of `begin` and `rollback`.**  Whatever any number of threads
have done, two of them are about to use a field that one of them is about to
write in two cases only, and in these always: one is going to list a reader in
`txs_`, and the other to read its length for the statistics; or one is going
to clear a reader, and the other, going to begin a writer, to read the meta
page of that reader. -/
theorem races_iff (h₀ : Fresh s) (n : Nat) (moves : List Move) (i j : Nat) (f : Field) :
    let c := Threads.run inplace_merge (.initial s n) moves
    Race c i j f ↔ Races c i j f := by
  intro c
  obtain ⟨a, h⟩ : ∃ a, Sim a c := ⟨_, sim_run moves (sim_initial h₀ n)⟩
  constructor
  · intro hr
    cases f with
    | rwtx => exact (h.not_race_writer (Or.inl rfl) hr).elim
    | txs => exact h.race_txs hr
    | freelist => exact (h.not_race_writer (Or.inr rfl) hr).elim
    | stats => exact (h.not_race_stats hr).elim
    | tx t => exact h.race_tx hr
  · intro hr
    cases hr with
    | txs hi hj hopened =>
        refine ⟨?_, ⟨_, hi, hopened⟩, ⟨_, hj, Or.inr trivial⟩⟩
        rintro rfl
        cases hi.symm.trans hj
    | @reader snapshot t new stale hi hj hopened ho =>
        -- an open reader is listed
        have hlisted : t ∈ c.shared.txs_ := by
          rw [h.agrees.txs]
          exact h.inv.reader t ((h.open_eq hi).mp ho)
        refine ⟨?_, ⟨_, hi, rfl, ho⟩, ⟨_, hj, Or.inr ⟨hopened, hlisted⟩⟩⟩
        rintro rfl
        cases hi.symm.trans hj

end

/-- A reader is rolled back while a writer begins; meanwhile two more readers
begin. -/
def racingMoves : List Move :=
  [.start 0 (.begin false (sampleNewTx 2) fun _ => 0),
    .line 0, .line 0, .line 0, .line 0, .line 0, .line 0, .line 0,
    .start 1 (.begin true (sampleNewTx 3) fun _ => 0), .line 1, .line 1, .line 1,
    .start 0 (.rollback (sampleNewTx 2).snapshot 0)]

theorem races_sample :
    let c := Threads.run merge (.initial (idleState .sample) 2) racingMoves
    Race c 0 1 (.tx 0) ∧ ¬ Race c 1 0 .freelist := by
  intro c
  have ho : c.shared.Open false 0 := ⟨_, rfl, rfl, rfl⟩
  refine ⟨(races_iff (fresh_idleState .sample) 2 racingMoves 0 1 _).mpr (.reader rfl rfl rfl ho),
    fun hr => ?_⟩
  cases (races_iff (fresh_idleState .sample) 2 racingMoves 1 0 _).mp hr

end BoltCpp
