/-
BoltCpp/Sweep.lean

Deleting while iterating.

A client that walks a bucket with `first` and `next` and calls `deleteCurrent`
on the keys it wants gone does not get rid of all of them: after a deletion the
index stays, the entry behind moves up to it, and `next` passes over that one.
What a whole sweep leaves is known leaf by leaf (`sweepLeaf`), so it does what
it is for exactly if no leaf has two doomed entries side by side (`sweep_iff`).
-/
import BoltCpp.LiveCursor

namespace BoltCpp

open KeyedList MultiTree

/-! ### What a sweep leaves -/

section

variable {α : Type*} (p : α → Bool)

/-- What is left of a leaf: the entry behind a deleted one is passed over. -/
def sweepLeaf : List α → List α
  | [] => []
  | [x] => if p x then [] else [x]
  | x :: y :: es => if p x then y :: sweepLeaf es else x :: sweepLeaf (y :: es)

variable {p}

theorem sweepLeaf_keep {x : α} (hx : p x = false) (es : List α) :
    sweepLeaf p (x :: es) = x :: sweepLeaf p es := by
  cases es with
  | nil => simp only [sweepLeaf, hx, Bool.false_eq_true, if_false]
  | cons y es => rw [sweepLeaf, hx, if_neg Bool.false_ne_true]

theorem sweepLeaf_drop {x : α} (hx : p x = true) (es : List α) :
    sweepLeaf p (x :: es) = es.take 1 ++ sweepLeaf p (es.drop 1) := by
  cases es with
  | nil => simp only [sweepLeaf, hx, if_true, List.take_nil, List.drop_nil, List.append_nil]
  | cons y es => rw [sweepLeaf, hx, if_pos rfl]; rfl

/-- **When a leaf is clean**: if no two doomed entries were side by side. -/
theorem sweepLeaf_clean_iff {es : List α} :
    (∀ x ∈ sweepLeaf p es, p x = false) ↔ es.IsChain fun x y => ¬ (p x = true ∧ p y = true) := by
  fun_induction sweepLeaf p es with
  | case1 => simp
  | case2 x hx => simp
  | case3 x hx => simpa using hx
  | case4 x y es hx ih =>
      rw [List.forall_mem_cons, ih, List.isChain_cons_cons, hx]
      rcases hy : p y
      · -- an entry that stays keeps its neighbours apart
        have htail : (y :: es).IsChain (fun x y => ¬ (p x = true ∧ p y = true))
            ↔ es.IsChain fun x y => ¬ (p x = true ∧ p y = true) := by
          cases es with
          | nil => simp
          | cons z es => simp [List.isChain_cons_cons, hy]
        exact ⟨fun h => ⟨by simp, htail.mpr h.2⟩, fun h => ⟨rfl, htail.mp h.2⟩⟩
      · simp
  | case5 x y es hx ih =>
      rw [List.forall_mem_cons, ih, List.isChain_cons_cons]
      simp [hx]

end

/-! ### One round on a row -/

namespace Place

variable {l r : List (List Entry)} {es : List Entry} {i : Nat}

theorem here_mid (l r : List (List Entry)) (es : List Entry) (i : Int) :
    here (l ++ es :: r) ⟨l.length, i⟩ = es := by
  simp [here]

theorem drop_mid (l r : List (List Entry)) (es : List Entry) :
    (l ++ es :: r).drop (l.length + 1) = r := by
  rw [List.drop_append, List.drop_of_length_le (by omega)]
  simp

theorem after_mid (l r : List (List Entry)) (es : List Entry) (i : Nat) :
    after (l ++ es :: r) ⟨l.length, (i : Nat)⟩ = es.drop (i + 1) ++ r.flatten := by
  rw [after, here_mid, drop_mid]
  rfl

/-- Nothing lies right of the leaf, or some empty leaves and one with an
entry. -/
theorem skip_cases (r : List (List Entry)) : ∀ p : Place,
    (∀ es ∈ r, es = []) ∨ ∃ r₀ e es r₁, r = r₀ ++ (e :: es) :: r₁ ∧ (∀ es ∈ r₀, es = []) ∧
      skip r p = ⟨p.leaf + r₀.length + 1, 0⟩ := by
  induction r with
  | nil => exact fun p => Or.inl fun es hes => absurd hes List.not_mem_nil
  | cons es r ih =>
      intro p
      cases es with
      | cons e es =>
          exact Or.inr ⟨[], e, es, r, rfl, fun es hes => absurd hes List.not_mem_nil, rfl⟩
      | nil =>
          rcases ih ⟨p.leaf + 1, 0⟩ with hempty | ⟨r₀, e, es, r₁, rfl, hempty, hskip⟩
          · exact Or.inl (List.forall_mem_cons.mpr ⟨rfl, hempty⟩)
          · refine Or.inr ⟨[] :: r₀, e, es, r₁, rfl, List.forall_mem_cons.mpr ⟨rfl, hempty⟩, ?_⟩
            rw [skip, if_pos List.length_nil, hskip, List.length_cons]
            show (⟨p.leaf + 1 + r₀.length + 1, 0⟩ : Place) = _
            congr 1
            omega

/-- `first` finds the first entry, if there is one. -/
theorem first_cases {row : List (List Entry)} (hrow : row ≠ []) :
    (∀ es ∈ row, es = []) ∨ ∃ l e es r, row = l ++ (e :: es) :: r ∧ (∀ es ∈ l, es = []) ∧
      first row = ⟨l.length, 0⟩ := by
  obtain ⟨es, r, rfl⟩ := List.exists_cons_of_ne_nil hrow
  have hhere : here (es :: r) ⟨0, 0⟩ = es := rfl
  rw [first, hhere]
  cases es with
  | cons e es =>
      exact Or.inr ⟨[], e, es, r, rfl, fun es hes => absurd hes List.not_mem_nil, rfl⟩
  | nil =>
      have hnext : next ([] :: r) ⟨0, 0⟩ = skip r ⟨0, 0⟩ := next_exhausted (by
        show ¬ (0 : Int) < 0 - 1
        decide)
      rw [if_pos List.length_nil, hnext]
      rcases skip_cases r ⟨0, 0⟩ with hempty | ⟨r₀, e, es, r₁, rfl, hempty, hskip⟩
      · exact Or.inl (List.forall_mem_cons.mpr ⟨rfl, hempty⟩)
      · refine Or.inr ⟨[] :: r₀, e, es, r₁, rfl, List.forall_mem_cons.mpr ⟨rfl, hempty⟩, ?_⟩
        rw [hskip, List.length_cons, Nat.zero_add]

theorem read_of_empty {row : List (List Entry)} (hrow : ∀ es ∈ row, es = []) (p : Place) :
    p.read row = .ok none := by
  have hhere : p.here row = [] := by
    rw [here]
    rcases hget : row[p.leaf]? with - | es
    · rfl
    · exact hrow es (List.mem_of_getElem? hget)
  rw [read, hhere]
  rfl

end Place

theorem flatten_of_empty {r : List (List Entry)} (hr : ∀ es ∈ r, es = []) : r.flatten = [] :=
  List.flatten_eq_nil_iff.mpr hr

theorem map_sweepLeaf_of_empty {p : Entry → Bool} {r : List (List Entry)}
    (hr : ∀ es ∈ r, es = []) : r.map (sweepLeaf p) = r := by
  conv_rhs => rw [← List.map_id r]
  refine List.map_congr_left fun es hes => ?_
  rw [hr es hes]
  rfl

/-- The leaf once the entry at `i` has been dealt with. -/
def dealt (p : Entry → Bool) (es : List Entry) (i : Nat) (e : Entry) : List Entry :=
  if p e then es.eraseIdx i else es

theorem dealt_subset {p : Entry → Bool} {es : List Entry} {i : Nat} {e : Entry} :
    ∀ x ∈ dealt p es i e, x ∈ es := by
  rw [dealt]
  split
  · exact fun x hx => List.mem_of_mem_eraseIdx hx
  · exact fun x hx => hx

theorem length_dealt_le {p : Entry → Bool} {es : List Entry} {i : Nat} {e : Entry} :
    (dealt p es i e).length ≤ es.length := by
  rw [dealt]
  split
  · exact List.length_eraseIdx_le es i
  · exact Nat.le_refl _

/-- The rest of a sweep, before the entry at `i` is dealt with and after. -/
theorem sweepLeaf_round {p : Entry → Bool} {es : List Entry} {i : Nat} {e : Entry}
    (he : es[i]? = some e) :
    es.take i ++ sweepLeaf p (es.drop i)
      = (dealt p es i e).take (i + 1) ++ sweepLeaf p ((dealt p es i e).drop (i + 1)) := by
  obtain ⟨hi, rfl⟩ := List.getElem?_eq_some_iff.mp he
  rw [List.drop_eq_getElem_cons hi, dealt]
  rcases hp : p es[i]
  · rw [sweepLeaf_keep hp, if_neg Bool.false_ne_true, List.take_succ_eq_append_getElem hi,
      List.append_assoc]
    rfl
  · rw [sweepLeaf_drop hp, if_pos rfl, List.eraseIdx_eq_take_drop_succ, ← List.append_assoc]
    have hlen : (es.take i).length = i := by
      rw [List.length_take]
      omega
    have htake : (es.take i).take (i + 1) = es.take i := List.take_of_length_le (by omega)
    have hdrop : (es.take i).drop (i + 1) = [] := List.drop_of_length_le (by omega)
    rw [List.take_append, List.drop_append, hlen, htake, hdrop, Nat.add_sub_cancel_left,
      List.nil_append]

/-! ### The loop -/

namespace Cursor

section

variable (b : Bucket) (tx : Transaction) (materialise : Pgid → Option NodePtr → Option NodePtr)
  (fuel : Nat) (doomed : Slice → Bool)

/-- `if (doomed(key)) deleteCurrent();` -/
def sweepBody (stack : Stack) (key : Slice) : EStateM DeleteStop Heap Unit :=
  if doomed key then deleteCurrent tx materialise fuel stack else pure ()

/-- `for (; key; key = next())`, with that body. -/
def sweepFrom : Nat → Stack → Option Slice → EStateM DeleteStop Heap Stack
  | 0, _, _ => throw (.fault .outOfFuel)
  | _ + 1, stack, none => pure stack
  | rounds + 1, stack, some key => do
      sweepBody tx materialise fuel doomed stack key
      let h ← get
      let (stack, pair) ← reading (next h b fuel stack)
      sweepFrom rounds stack pair.1

/-- The loop, begun with `key = first()`. -/
def sweep (rounds : Nat) : EStateM DeleteStop Heap Stack := do
  let h ← get
  let (stack, pair) ← reading (first h b fuel [])
  sweepFrom b tx materialise fuel doomed rounds stack pair.1

end

end Cursor

namespace NodeTree

variable {h₀ h : Heap} {b : Bucket} {S : NodeTree} {route : Slice → Nat} {fuel : Nat}
  {stack : Cursor.Stack} {tx : Transaction}
  {materialise : Pgid → Option NodePtr → Option NodePtr} {doomed : Slice → Bool}
  {l r : List (List Entry)} {es : List Entry} {i : Nat} {e : Entry}

/-- Every entry to be deleted can be: not a bucket, and not under an empty key. -/
def Sweepable (doomed : Slice → Bool) (es : List Entry) : Prop :=
  ∀ e ∈ es, doomed e.key = true → e.flags &&& BucketLeafFlag = 0 ∧ e.key ≠ []

/-- The cursor is at index `i` of the leaf `es`, with the leaves `l` and `r` on
either side. -/
abbrev ShowsAt (S : NodeTree) (b : Bucket) (fuel : Nat) (route : Slice → Nat) (h₀ h : Heap)
    (stack : Cursor.Stack) (l : List (List Entry)) (es : List Entry) (r : List (List Entry))
    (i : Nat) : Prop :=
  Shows S b fuel route h₀ h stack ⟨l ++ es :: r, some ⟨l.length, (i : Nat)⟩⟩

/-- A turn that has deleted. -/
theorem deleted_of_turn {vec : Nat → Nat} {pgid : Pgid} {h' : Heap} {stack' : Cursor.Stack}
    (hturn : Cursor.turn b tx materialise vec pgid fuel h stack .deleteCurrent
      = .ok (h', stack', .deleted)) :
    Cursor.deleteCurrent tx materialise fuel stack h = .ok () h' ∧ stack' = stack := by
  rw [Cursor.turn] at hturn
  rcases hdelete : Cursor.deleteCurrent tx materialise fuel stack h with ⟨⟨⟩, h₁⟩ | ⟨e, h₁⟩
  · rw [hdelete] at hturn
    cases hturn
    exact ⟨rfl, rfl⟩
  · rw [hdelete] at hturn
    cases e <;> cases hturn

/-- **The body of the loop** deals with the entry the cursor is at. -/
theorem body_lands (hs : ShowsAt S b fuel route h₀ h stack l es r i) (he : es[i]? = some e)
    (hwrite : Cursor.mayWrite tx = true) (hdeep : S.deep l.length = true)
    (hsweep : doomed e.key = true → e.flags &&& BucketLeafFlag = 0 ∧ e.key ≠ []) :
    ∃ h', Cursor.sweepBody tx materialise fuel doomed stack e.key h = .ok () h' ∧
      ShowsAt S b fuel route h₀ h' stack l (dealt (fun e => doomed e.key) es i e) r i := by
  rw [dealt, Cursor.sweepBody]
  rcases hd : doomed e.key
  · exact ⟨h, rfl, hs⟩
  obtain ⟨hplain, hkey⟩ := hsweep hd
  have hread : (⟨l.length, (i : Nat)⟩ : Place).read (l ++ es :: r) = .ok (some e) := by
    rw [Place.read_of_nonneg (Int.natCast_nonneg i), Place.here_mid, Int.toNat_natCast, he]
  have hrow : (l ++ es :: r).modify l.length (fun es => es.eraseIdx i)
      = l ++ es.eraseIdx i :: r := by
    have hmid := modify_middle (fun es : List Entry => es.eraseIdx i) l [es] r Nat.one_pos
    simpa using hmid
  have hdelete : RowCursor.deleteCurrent S.deep (Cursor.mayWrite tx)
      ⟨l ++ es :: r, some ⟨l.length, (i : Nat)⟩⟩
        = .ok (⟨l ++ es.eraseIdx i :: r, some ⟨l.length, (i : Nat)⟩⟩, .deleted) := by
    have hflags : ¬ (keyValueOf (some e)).2.2 &&& BucketLeafFlag ≠ 0 := not_not.mpr hplain
    simp only [RowCursor.deleteCurrent, hwrite, hread, ok_bind, if_neg hflags, hdeep, if_neg hkey,
      Int.toNat_natCast, hrow]
    rfl
  have hagrees : Lockstep _
      (Cursor.turn b tx materialise (fun _ => 0) 0 fuel h stack .deleteCurrent) _ :=
    deleteCurrent_agrees hs
  rw [hdelete] at hagrees
  rcases hturn : Cursor.turn b tx materialise (fun _ => 0) 0 fuel h stack .deleteCurrent
    with e' | ⟨h', stack', reply⟩
  · rw [hturn] at hagrees
    cases hagrees
  · rw [hturn] at hagrees
    cases hagrees with
    | ok hsame =>
        obtain ⟨hs', hreply⟩ := hsame
        obtain rfl : reply = .deleted := hreply
        obtain ⟨hdone, rfl⟩ := deleted_of_turn hturn
        exact ⟨h', hdone, hs'⟩

/-- **The step of the loop.** -/
theorem next_shows {row : List (List Entry)} {p : Place}
    (hs : Shows S b fuel route h₀ h stack ⟨row, some p⟩) :
    ∃ stack', Cursor.next h b fuel stack = .ok (stack', pairOf (p.after row).head?) ∧
      Shows S b fuel route h₀ h stack' ⟨row, some (p.next row)⟩ := by
  have hagrees := call_agrees hs.holds hs.size hs.rests .next
  rw [Place.call, hs.leaves] at hagrees
  rcases hnext : Cursor.next h b fuel stack with e | ⟨stack', pair⟩
  · rw [Cursor.call, hnext] at hagrees
    cases hagrees
  · rw [Cursor.call, hnext] at hagrees
    cases hagrees with
    | ok hsame =>
        obtain ⟨hrests, hpair⟩ := hsame
        obtain rfl : pair = _ := hpair
        exact ⟨stack', rfl, hs.holds, hs.size, hs.route, hs.leaves, hrests, hs.mem, hs.others⟩

theorem key_pairOf (e : Option Entry) : (pairOf e).1 = e.map Entry.key := by
  cases e <;> rfl

/-- One round of the loop: the entry is dealt with, and `next` taken. -/
theorem round_lands (hwrite : Cursor.mayWrite tx = true)
    (hdeep : ∀ a < S.leafCount, S.deep a = true) (hs : ShowsAt S b fuel route h₀ h stack l es r i)
    {e : Entry} (he : es[i]? = some e) (hsweep : Sweepable doomed (es ++ r.flatten))
    (rounds : Nat) {es₁ : List Entry} (hes₁ : dealt (fun e => doomed e.key) es i e = es₁) :
    ∃ stack₂ h₁,
      Cursor.sweepFrom b tx materialise fuel doomed (rounds + 1) stack (some e.key) h
        = Cursor.sweepFrom b tx materialise fuel doomed rounds stack₂
          ((es₁.drop (i + 1) ++ r.flatten).head?.map Entry.key) h₁ ∧
      Shows S b fuel route h₀ h₁ stack₂
        ⟨l ++ es₁ :: r, some (Place.next (l ++ es₁ :: r) ⟨l.length, (i : Nat)⟩)⟩ := by
  have hlt : l.length < S.leafCount := by
    rw [← length_row h, hs.leaves]
    simp
  obtain ⟨h₁, hbody, hs₁⟩ : ∃ h₁,
      Cursor.sweepBody tx materialise fuel doomed stack e.key h = .ok () h₁ ∧ _ :=
    body_lands hs he hwrite (hdeep _ hlt)
      (hsweep e (List.mem_append_left _ (List.mem_of_getElem? he)))
  rw [hes₁] at hs₁
  obtain ⟨stack₂, hnext, hs₂⟩ := next_shows hs₁
  rw [Place.after_mid] at hnext
  refine ⟨stack₂, h₁, ?_, hs₂⟩
  have hget : (get : EStateM Cursor.DeleteStop Heap Heap) h₁ = .ok h₁ h₁ := rfl
  have hread := Cursor.reading_ok (stack₂, pairOf (es₁.drop (i + 1) ++ r.flatten).head?) h₁
  rw [← hnext] at hread
  rw [Cursor.sweepFrom, bind_ok hbody, bind_ok hget, bind_ok hread, ← key_pairOf]

/-- `next` within the leaf. -/
theorem shows_inside (hs : Shows S b fuel route h₀ h stack
      ⟨l ++ es :: r, some (Place.next (l ++ es :: r) ⟨l.length, (i : Nat)⟩)⟩)
    (hin : i + 1 < es.length) : ShowsAt S b fuel route h₀ h stack l es r (i + 1) := by
  have hplace : Place.next (l ++ es :: r) ⟨l.length, (i : Nat)⟩
      = ⟨l.length, ((i + 1 : Nat) : Int)⟩ := by
    refine (Place.next_inside ?_).trans rfl
    rw [Place.here_mid]
    show ((i : Nat) : Int) < (es.length : Int) - 1
    omega
  rwa [hplace] at hs

/-- `next` from the last entry of the leaf: there is no other entry, or it
moves to the first one of a leaf to the right. -/
theorem shows_past (hs : Shows S b fuel route h₀ h stack
      ⟨l ++ es :: r, some (Place.next (l ++ es :: r) ⟨l.length, (i : Nat)⟩)⟩)
    (hend : es.length ≤ i + 1) :
    (∀ xs ∈ r, xs = []) ∨ ∃ r₀ e' es' r₁, r = r₀ ++ (e' :: es') :: r₁ ∧
      (∀ xs ∈ r₀, xs = []) ∧
      ShowsAt S b fuel route h₀ h stack (l ++ es :: r₀) (e' :: es') r₁ 0 := by
  have hplace : Place.next (l ++ es :: r) ⟨l.length, (i : Nat)⟩
      = Place.skip r ⟨l.length, (i : Nat)⟩ := by
    rw [Place.next_exhausted, Place.drop_mid]
    rw [Place.here_mid]
    show ¬ ((i : Nat) : Int) < (es.length : Int) - 1
    omega
  rw [hplace] at hs
  rcases Place.skip_cases r ⟨l.length, (i : Nat)⟩ with
    hempty | ⟨r₀, e', es', r₁, rfl, hempty, hskip⟩
  · exact Or.inl hempty
  · refine Or.inr ⟨r₀, e', es', r₁, rfl, hempty, ?_⟩
    have hrow : l ++ es :: (r₀ ++ (e' :: es') :: r₁)
        = (l ++ es :: r₀) ++ (e' :: es') :: r₁ := by simp
    have hlen : l.length + r₀.length + 1 = (l ++ es :: r₀).length := by simp; omega
    have hplace' : (⟨l.length + r₀.length + 1, 0⟩ : Place)
        = ⟨(l ++ es :: r₀).length, ((0 : Nat) : Int)⟩ := by
      rw [hlen]
      rfl
    have hleaf : (⟨l.length, (i : Nat)⟩ : Place).leaf = l.length := rfl
    rw [hskip, hrow, hleaf, hplace'] at hs
    exact hs

/-- **The loop from an entry on** sweeps the rest of the leaf and the leaves to
the right. -/
theorem sweepFrom_lands (hwrite : Cursor.mayWrite tx = true)
    (hdeep : ∀ a < S.leafCount, S.deep a = true) (rounds : Nat) :
    ∀ {h : Heap} {stack : Cursor.Stack} {l r : List (List Entry)} {es : List Entry} {i : Nat}
      {e : Entry}, ShowsAt S b fuel route h₀ h stack l es r i → es[i]? = some e →
      Sweepable doomed (es ++ r.flatten) → (es.drop i ++ r.flatten).length < rounds →
      ∃ stack' h' place,
        Cursor.sweepFrom b tx materialise fuel doomed rounds stack (some e.key) h = .ok stack' h' ∧
        Shows S b fuel route h₀ h' stack' ⟨l ++ (es.take i
          ++ sweepLeaf (fun e => doomed e.key) (es.drop i))
            :: r.map (sweepLeaf fun e => doomed e.key), place⟩ := by
  induction rounds with
  | zero => exact fun _ _ _ hrounds => absurd hrounds (Nat.not_lt_zero _)
  | succ rounds ih =>
      intro h stack l r es i e hs he hsweep hrounds
      -- the leaf is `es₁` after this round
      obtain ⟨es₁, hes₁⟩ : ∃ es₁, dealt (fun e => doomed e.key) es i e = es₁ := ⟨_, rfl⟩
      have hsub : ∀ x ∈ es₁, x ∈ es := hes₁ ▸ dealt_subset
      have hle : es₁.length ≤ es.length := hes₁ ▸ length_dealt_le
      have hi := (List.getElem?_eq_some_iff.mp he).1
      obtain ⟨stack₂, h₁, hround, hs₂⟩ : ∃ stack₂ h₁, Cursor.sweepFrom b tx materialise fuel doomed
          (rounds + 1) stack (some e.key) h = _ ∧ _ :=
        round_lands hwrite hdeep hs he hsweep rounds hes₁
      rw [hround, sweepLeaf_round he, hes₁]
      rw [List.length_append, List.length_drop] at hrounds
      by_cases hin : i + 1 < es₁.length
      · -- the leaf has a next entry
        have hget : es₁[i + 1]? = some es₁[i + 1] := List.getElem?_eq_getElem hin
        rw [List.head?_append, List.head?_drop, hget]
        refine ih (shows_inside hs₂ hin) hget (fun x hx => hsweep x ?_) ?_
        · exact (List.mem_append.mp hx).elim (fun h => List.mem_append_left _ (hsub x h))
            fun h => List.mem_append_right _ h
        · rw [List.length_append, List.length_drop]
          omega
      · have hdrop : es₁.drop (i + 1) = [] := List.drop_eq_nil_of_le (by omega)
        have htake : es₁.take (i + 1) = es₁ := List.take_of_length_le (by omega)
        rw [hdrop, htake, List.nil_append, sweepLeaf, List.append_nil]
        rcases shows_past hs₂ (not_lt.mp hin) with hempty | ⟨r₀, e', es', r₁, rfl, hempty, hs₃⟩
        · -- there is no entry left
          rw [flatten_of_empty hempty, map_sweepLeaf_of_empty hempty]
          obtain ⟨k, rfl⟩ : ∃ k, rounds = k + 1 := ⟨rounds - 1, by omega⟩
          exact ⟨stack₂, h₁, _, rfl, hs₂⟩
        · -- the loop goes on in another leaf
          have hflat : (r₀ ++ (e' :: es') :: r₁).flatten = e' :: es' ++ r₁.flatten := by
            rw [List.flatten_append, flatten_of_empty hempty, List.nil_append, List.flatten_cons]
          rw [hflat] at hsweep hrounds ⊢
          obtain ⟨stack', h', place, hrun, hs'⟩ := ih hs₃ rfl
            (fun x hx => hsweep x (List.mem_append_right _ hx)) (by
              rw [List.drop_zero]
              omega)
          refine ⟨stack', h', place, hrun, ?_⟩
          rw [List.map_append, map_sweepLeaf_of_empty hempty, List.map_cons]
          simpa using hs'

/-- The sweep goes through the whole row. -/
theorem sweep_lands {rounds : Nat} (hS : S.Holds h b) (hfuel : (S.contents h).size < fuel)
    (hwrite : Cursor.mayWrite tx = true) (hdeep : ∀ a < S.leafCount, S.deep a = true)
    (hsweep : Sweepable doomed (S.row h).flatten) (hrounds : (S.row h).flatten.length < rounds) :
    ∃ stack' h' place,
      Cursor.sweep b tx materialise fuel doomed rounds h = .ok stack' h' ∧
      Shows S b fuel (S.contents h).leafOf h h' stack'
        ⟨(S.row h).map (sweepLeaf fun e => doomed e.key), place⟩ := by
  have hget : (get : EStateM Cursor.DeleteStop Heap Heap) h = .ok h h := rfl
  have hrow : S.row h ≠ [] := by
    rw [← List.length_pos_iff, length_row]
    exact leafCount_pos hS.nonempty
  have hagrees := first_agrees hS hfuel []
  have hstart : ∀ {stack place}, Rests S stack place →
      Shows S b fuel (S.contents h).leafOf h h stack ⟨S.row h, place⟩ := fun hr =>
    ⟨hS, hfuel, fun _ => rfl, rfl, hr, rfl, fun _ _ => rfl⟩
  rw [Cursor.sweep, bind_ok hget]
  rcases Place.first_cases hrow with hempty | ⟨l, e, es, r, heq, hempty, hfirst⟩
  · -- no entry at all
    rw [Place.arrive, Place.read_of_empty hempty, ok_bind] at hagrees
    rcases hrun : Cursor.first h b fuel [] with e | ⟨stack, pair⟩
    · rw [hrun] at hagrees
      cases hagrees
    rw [hrun] at hagrees
    cases hagrees with
    | ok hsame =>
        obtain ⟨hrests, hpair⟩ := hsame
        obtain rfl : pair = _ := hpair
        obtain ⟨k, rfl⟩ : ∃ k, rounds = k + 1 := ⟨rounds - 1, by omega⟩
        rw [bind_ok (Cursor.reading_ok _ h), map_sweepLeaf_of_empty hempty]
        exact ⟨stack, h, _, rfl, hstart hrests⟩
  · have hread : (Place.first (S.row h)).read (S.row h) = .ok (some e) := by
      rw [hfirst, Place.read_of_nonneg (Int.le_refl 0), heq, Place.here_mid]
      rfl
    rw [Place.arrive, hread, ok_bind] at hagrees
    rcases hrun : Cursor.first h b fuel [] with e | ⟨stack, pair⟩
    · rw [hrun] at hagrees
      cases hagrees
    rw [hrun] at hagrees
    cases hagrees with
    | ok hsame =>
        obtain ⟨hrests, hpair⟩ := hsame
        obtain rfl : pair = _ := hpair
        have hs := hstart hrests
        rw [hfirst, heq] at hs
        have hflat : (S.row h).flatten = e :: es ++ r.flatten := by
          rw [heq, List.flatten_append, flatten_of_empty hempty, List.nil_append,
            List.flatten_cons]
        rw [hflat] at hsweep hrounds
        obtain ⟨stack', h', place, hloop, hs'⟩ : ∃ stack' h' place, Cursor.sweepFrom b tx
            materialise fuel doomed rounds stack (some e.key) h = .ok stack' h' ∧ _ :=
          sweepFrom_lands (i := 0) hwrite hdeep rounds hs rfl hsweep hrounds
        have hkey : (pairOf (some e)).1 = some e.key := key_pairOf _
        rw [← hkey] at hloop
        rw [bind_ok (Cursor.reading_ok _ h), heq, List.map_append, map_sweepLeaf_of_empty hempty,
          List.map_cons]
        exact ⟨stack', h', place, hloop, hs'⟩

/-- **What deleting while iterating comes to.**  The loop ends without a fault
and leaves the entries of each leaf without the doomed ones, except those right
behind one that was deleted.  So it leaves a doomed key exactly if two of them
were side by side in a leaf. -/
theorem sweep_iff {S : NodeTree} {h : Heap} {b : Bucket} {fuel rounds : Nat} {tx : Transaction}
    {doomed : Slice → Bool} (hS : S.Holds h b) (hfuel : (S.contents h).size < fuel)
    (hwrite : Cursor.mayWrite tx = true) (hdeep : ∀ a < S.leafCount, S.deep a = true)
    (hsweep : Sweepable doomed (S.contents h).elements)
    (hrounds : (S.contents h).elements.length < rounds)
    (materialise : Pgid → Option NodePtr → Option NodePtr) :
    ∃ stack' h', Cursor.sweep b tx materialise fuel doomed rounds h = .ok stack' h' ∧
      S.Holds h' b ∧
      (S.contents h').leaves = (S.contents h).leaves.map (sweepLeaf fun e => doomed e.key) ∧
      h'.mem = h.mem ∧ (∀ m ∉ S.ptrs, h'.node m = h.node m) ∧
      ((∀ e ∈ (S.contents h').elements, doomed e.key = false) ↔
        ∀ es ∈ (S.contents h).leaves,
          es.IsChain fun x y => ¬ (doomed x.key = true ∧ doomed y.key = true)) := by
  have hrow := leaves_eq_row h S
  rw [elements, hrow] at hsweep hrounds
  obtain ⟨stack', h', place, hrun, hs⟩ : ∃ stack' h' place,
      Cursor.sweep b tx materialise fuel doomed rounds h = .ok stack' h' ∧ _ :=
    sweep_lands hS hfuel hwrite hdeep hsweep hrounds
  have hleaves := (leaves_eq_row h' S).trans hs.leaves
  refine ⟨stack', h', hrun, hs.holds, by rw [hleaves, hrow], hs.mem, hs.others, ?_⟩
  rw [elements, hleaves, hrow, List.forall_mem_flatten, List.forall_mem_map]
  exact forall₂_congr fun es _ => sweepLeaf_clean_iff

end NodeTree

/-- To delete all keys of the leaf takes more than one sweep. -/
theorem sweep_sample :
    ∃ stack h', Cursor.sweep Cursor.chainBucket (Cursor.writer Cursor.chainBucket)
        (fun _ _ => none) 20 (fun _ => true) 3 Cursor.chainHeap = .ok stack h' ∧
      ((Cursor.chainShape 9).contents h').leaves = [[⟨0, [99], [1]⟩]] := by
  have hcontents := Cursor.contents_chainShape 9 (by decide)
  have hfuel : ((Cursor.chainShape 9).contents Cursor.chainHeap).size < 20 := by
    rw [hcontents]
    exact Cursor.enough_chain.size_lt
  have hsweep : NodeTree.Sweepable (fun _ => true) (Cursor.chainTree 9).elements := by
    unfold NodeTree.Sweepable
    decide +kernel
  obtain ⟨stack, h', hrun, -, hleaves, -⟩ :=
    NodeTree.sweep_iff Cursor.holds_chainShape hfuel (rfl : Cursor.mayWrite
      (Cursor.writer Cursor.chainBucket) = true) (by decide +kernel)
      (by rw [hcontents]; exact hsweep) (show _ < 3 by rw [hcontents]; decide) fun _ _ => none
  rw [hcontents] at hleaves
  exact ⟨stack, h', hrun, hleaves⟩

end BoltCpp
