/-
BoltCpp/Lib/Crowd.lean

A crowd of threads, each at a place of its own, one of which moves at a time.

`total` adds up what the threads carry; a move changes it by what the thread
that moves lays down and takes up (`total_set`).  With locks that are taken in
the order of a rank, somebody can always move, or waits for a lock that nobody
holds (`exists_moving`).
-/
import Mathlib.Algebra.BigOperators.Group.List.Basic

namespace Crowd

universe u v w

variable {τ : Type u} {M : Type v}

/-! ### What the threads carry -/

section

variable [AddCommMonoid M]

/-- What the threads carry together. -/
def total (f : τ → M) (ts : List τ) : M := (ts.map f).sum

@[simp] theorem total_nil (f : τ → M) : total f [] = 0 := rfl

@[simp] theorem total_cons (f : τ → M) (t : τ) (ts : List τ) :
    total f (t :: ts) = f t + total f ts := List.sum_cons

theorem total_concat (f : τ → M) (ts : List τ) (t : τ) :
    total f (ts ++ [t]) = total f ts + f t := by
  rw [total, List.map_append, List.sum_append]
  exact congrArg (total f ts + ·) (add_zero (f t))

/-- **One thread moves.** -/
theorem total_set (f : τ → M) {ts : List τ} :
    ∀ {i : Nat} {t : τ}, ts[i]? = some t → ∀ t' : τ,
      total f (ts.set i t') + f t = total f ts + f t' := by
  induction ts with
  | nil => exact fun h => by cases h
  | cons t₀ ts ih =>
      intro i t h t'
      cases i with
      | zero =>
          obtain rfl : t₀ = t := Option.some.inj h
          rw [List.set_cons_zero, total_cons, total_cons, add_right_comm, add_comm (f t'),
            add_right_comm (f t₀)]
      | succ i =>
          have h' : ts[i]? = some t := h
          rw [List.set_cons_succ, total_cons, total_cons, add_assoc, add_assoc, ih h' t']

/-- Threads that carry nothing. -/
theorem total_eq_zero {f : τ → M} {ts : List τ} (h : ∀ t ∈ ts, f t = 0) : total f ts = 0 := by
  induction ts with
  | nil => rfl
  | cons t ts ih =>
      rw [total_cons, h t List.mem_cons_self, ih fun t' ht' => h t' (List.mem_cons_of_mem _ ht'),
        add_zero]

end

/-- Who was there and did not move is still there. -/
theorem mem_set_of_mem {ts : List τ} {i : Nat} {t x : τ} (hi : ts[i]? = some t) (hx : x ∈ ts)
    (t' : τ) : x = t ∨ x ∈ ts.set i t' := by
  obtain ⟨j, hj⟩ := List.mem_iff_getElem?.mp hx
  by_cases hij : i = j
  · subst hij
    exact Or.inl (Option.some.inj (hj.symm.trans hi))
  · refine Or.inr (List.mem_of_getElem? (i := j) ?_)
    rw [List.getElem?_set_ne hij]
    exact hj

theorem mem_set_cases {ts : List τ} {i : Nat} {t' x : τ} (hx : x ∈ ts.set i t') :
    x = t' ∨ ∃ j, j ≠ i ∧ ts[j]? = some x := by
  obtain ⟨j, hj⟩ := List.mem_iff_getElem?.mp hx
  by_cases hij : i = j
  · subst hij
    rw [List.getElem?_set_self'] at hj
    obtain ⟨_, -, rfl⟩ := Option.map_eq_some_iff.mp hj
    exact Or.inl rfl
  · rw [List.getElem?_set_ne hij] at hj
    exact Or.inr ⟨j, Ne.symm hij, hj⟩

theorem self_mem_set {ts : List τ} {i : Nat} {t : τ} (hi : ts[i]? = some t) (t' : τ) :
    t' ∈ ts.set i t' := by
  obtain ⟨hlt, -⟩ := List.getElem?_eq_some_iff.mp hi
  exact List.mem_set hlt t'

section

variable {f : τ → Nat} {ts : List τ}

/-- What one of them carries. -/
theorem le_total {t : τ} (h : t ∈ ts) : f t ≤ total f ts := by
  induction ts with
  | nil => cases h
  | cons t₀ ts ih =>
      rw [total_cons]
      rcases List.mem_cons.mp h with rfl | h
      · omega
      · have := ih h
        omega

/-- What two of them carry. -/
theorem add_le_total {i j : Nat} {t t' : τ} (hij : i ≠ j) (hi : ts[i]? = some t)
    (hj : ts[j]? = some t') : f t + f t' ≤ total f ts := by
  induction ts generalizing i j with
  | nil => cases hi
  | cons t₀ ts ih =>
      rw [total_cons]
      cases i with
      | zero =>
          obtain rfl : t₀ = t := Option.some.inj hi
          cases j with
          | zero => exact absurd rfl hij
          | succ j =>
              have : f t' ≤ total f ts := le_total (List.mem_of_getElem? hj)
              omega
      | succ i =>
          cases j with
          | zero =>
              obtain rfl : t₀ = t' := Option.some.inj hj
              have : f t ≤ total f ts := le_total (List.mem_of_getElem? hi)
              omega
          | succ j =>
              have := ih (fun h => hij (congrArg (· + 1) h)) hi hj
              omega

end

/-! ### Locks in the order of a rank -/

section

variable {L : Type w}

/-- **No deadlock.**  When what a thread waits for ranks above all that it
holds, one thread does not wait, or waits for a lock that nobody holds.  It
is the thread one began with, or holds a lock. -/
theorem exists_moving (waits holds : τ → L → Prop) (rank : L → Nat) {bound : Nat}
    (hbound : ∀ l, rank l ≤ bound)
    (horder : ∀ t l l', holds t l → waits t l' → rank l < rank l') (t₀ : τ) :
    ∃ t, (t = t₀ ∨ ∃ l, holds t l) ∧ ∀ l, waits t l → ∀ t', ¬ holds t' l := by
  by_cases hwait : ∃ l, waits t₀ l ∧ ∃ t, holds t l
  · obtain ⟨l, -, t, hl⟩ := hwait
    -- along the holders the ranks grow
    suffices ∀ n, ∀ t l, holds t l → bound - rank l = n →
        ∃ t, (∃ l, holds t l) ∧ ∀ l, waits t l → ∀ t', ¬ holds t' l by
      obtain ⟨t, hholds, hno⟩ := this _ t l hl rfl
      exact ⟨t, Or.inr hholds, hno⟩
    intro n
    induction n using Nat.strongRecOn with
    | _ n ih =>
        intro t l hl hn
        by_cases hnext : ∃ l', waits t l' ∧ ∃ t', holds t' l'
        · obtain ⟨l', hw, t', hl'⟩ := hnext
          have hlt := horder t l l' hl hw
          have hle := hbound l'
          exact ih (bound - rank l') (by omega) t' l' hl' rfl
        · exact ⟨t, ⟨l, hl⟩, fun l' hw t' hl' => hnext ⟨l', hw, t', hl'⟩⟩
  · exact ⟨t₀, Or.inl rfl, fun l hw t hl => hwait ⟨l, hw, t, hl⟩⟩

end

end Crowd
