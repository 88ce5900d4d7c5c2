/-
BoltCpp/Lib/Bisect.lean

The bisection of `std::lower_bound`, on a list and a Boolean predicate `p`
("less than the key").  The standard promises a result only on ranges that
`p` partitions; the loop itself is deterministic on every range, so we
state first what it guarantees without any order:

    Boundary p xs r      `p` holds just before `r` and fails at `r`.

`lowerBound_boundary` needs no hypothesis.  On a partitioned list the
boundary is unique and splits the list (`Boundary.iff_lt`), which is the
textbook specification.
-/
import Mathlib.Data.List.Basic

namespace Bisect

variable {α : Type*}

/-! ### The loop -/

/-- The loop of `std::lower_bound`: the `len` elements from `first` on are
still undecided.  `fuel` bounds the iterations; `len` of them are enough. -/
def loop (p : α → Bool) (xs : List α) : (fuel first len : Nat) → Nat
  | 0, first, _ => first
  | fuel + 1, first, len =>
      if len = 0 then first
      else
        match xs[first + len / 2]? with
        | none => first
        | some x =>
            if p x then loop p xs fuel (first + len / 2 + 1) (len - len / 2 - 1)
            else loop p xs fuel first (len / 2)

/-- `std::lower_bound(xs.begin(), xs.end(), key) - xs.begin()`, where `p x`
is `x < key`. -/
def lowerBound (p : α → Bool) (xs : List α) : Nat :=
  loop p xs xs.length 0 xs.length

/-! ### What the loop guarantees on any range -/

/-- `r` is a boundary of `p` in `xs`: `p` holds at the element before `r`
and fails at the element at `r`, where these exist. -/
structure Boundary (p : α → Bool) (xs : List α) (r : Nat) : Prop where
  le : r ≤ xs.length
  before : ∀ i, i + 1 = r → ∀ x, xs[i]? = some x → p x = true
  here : ∀ x, xs[r]? = some x → p x = false

theorem loop_boundary (p : α → Bool) (xs : List α) :
    ∀ fuel first len, len ≤ fuel → first + len ≤ xs.length →
      (∀ i, i + 1 = first → ∀ x, xs[i]? = some x → p x = true) →
      (∀ x, xs[first + len]? = some x → p x = false) →
      Boundary p xs (loop p xs fuel first len) := by
  intro fuel
  induction fuel with
  | zero =>
      intro first len hlen hle hb hh
      obtain rfl : len = 0 := by omega
      exact ⟨by simpa [loop] using hle, hb, by simpa [loop] using hh⟩
  | succ fuel ih =>
      intro first len hlen hle hb hh
      by_cases h0 : len = 0
      · subst h0
        exact ⟨by simpa [loop] using hle, by simpa [loop] using hb,
          by simpa [loop] using hh⟩
      · have hmid : first + len / 2 < xs.length := by omega
        have hget : xs[first + len / 2]? = some xs[first + len / 2] :=
          List.getElem?_eq_getElem hmid
        simp only [loop, if_neg h0, hget]
        by_cases hp : p xs[first + len / 2] = true
        · -- the probe is below the key: everything up to it is settled
          rw [if_pos hp]
          refine ih _ _ (by omega) (by omega) ?_ ?_
          · intro i hi x hx
            obtain rfl : i = first + len / 2 := by omega
            rw [hget] at hx
            cases hx
            exact hp
          · have : first + len / 2 + 1 + (len - len / 2 - 1) = first + len := by omega
            rw [this]
            exact hh
        · -- the probe is not below the key: it becomes the new end
          rw [if_neg hp]
          refine ih _ _ (by omega) (by omega) hb ?_
          intro x hx
          rw [hget] at hx
          cases hx
          simpa using hp

/-- Whatever the range holds, the result is a boundary. -/
theorem lowerBound_boundary (p : α → Bool) (xs : List α) :
    Boundary p xs (lowerBound p xs) := by
  refine loop_boundary p xs _ 0 _ (Nat.le_refl _) (by omega) (by omega) ?_
  intro x hx
  simp at hx

theorem lowerBound_le (p : α → Bool) (xs : List α) :
    lowerBound p xs ≤ xs.length :=
  (lowerBound_boundary p xs).le

/-! ### Partitioned ranges -/

/-- The range is partitioned by `p`: once `p` fails it keeps failing. -/
def Partitioned (p : α → Bool) (xs : List α) : Prop :=
  xs.Pairwise fun x y => p y = true → p x = true

/-- On a partitioned range a boundary separates the elements where `p`
holds from those where it fails. -/
theorem Boundary.iff_lt {p : α → Bool} {xs : List α} {r : Nat}
    (hb : Boundary p xs r) (hp : Partitioned p xs) (i : Nat) (hi : i < xs.length) :
    p xs[i] = true ↔ i < r := by
  rw [Partitioned, List.pairwise_iff_getElem] at hp
  constructor
  · intro h
    -- `p` fails at `r`, so it cannot hold from there on
    by_contra hge
    have hr : r < xs.length := by omega
    have hfail := hb.here _ (List.getElem?_eq_getElem hr)
    rcases Nat.lt_or_eq_of_le (Nat.le_of_not_lt hge) with hlt | heq
    · rw [hp r i hr hi hlt h] at hfail
      cases hfail
    · subst heq
      rw [h] at hfail
      cases hfail
  · intro h
    -- `p` holds just before `r`, so it holds all the way up to it
    have hr : r - 1 < xs.length := by have := hb.le; omega
    have hlast := hb.before (r - 1) (by omega) _ (List.getElem?_eq_getElem hr)
    rcases Nat.lt_or_eq_of_le (Nat.le_sub_one_of_lt h) with hlt | heq
    · exact hp i (r - 1) hi hr hlt hlast
    · subst heq
      exact hlast

/-- On a partitioned range the boundary is unique. -/
theorem Boundary.unique {p : α → Bool} {xs : List α} {r r' : Nat}
    (hp : Partitioned p xs) (hb : Boundary p xs r) (hb' : Boundary p xs r') :
    r = r' := by
  rcases Nat.lt_trichotomy r r' with hlt | heq | hlt
  · have hr : r < xs.length := by have := hb'.le; omega
    have := ((hb.iff_lt hp r hr).mp ((hb'.iff_lt hp r hr).mpr hlt))
    omega
  · exact heq
  · have hr : r' < xs.length := by have := hb.le; omega
    have := ((hb'.iff_lt hp r' hr).mp ((hb.iff_lt hp r' hr).mpr hlt))
    omega

/-- To know the result on a partitioned range it is enough to exhibit a
boundary. -/
theorem lowerBound_eq {p : α → Bool} {xs : List α} {r : Nat}
    (hp : Partitioned p xs) (hb : Boundary p xs r) : lowerBound p xs = r :=
  Boundary.unique hp (lowerBound_boundary p xs) hb

/-- On a partitioned range the lower bound cuts off the elements where `p`
holds. -/
theorem take_lowerBound {p : α → Bool} {xs : List α} (hp : Partitioned p xs) :
    xs.take (lowerBound p xs) = xs.filter p := by
  have hb := lowerBound_boundary p xs
  have hin : (xs.take (lowerBound p xs)).filter p = xs.take (lowerBound p xs) := by
    rw [List.filter_eq_self]
    intro x hx
    obtain ⟨i, hi, rfl⟩ := List.mem_iff_getElem.mp hx
    rw [List.getElem_take]
    have hlt : i < lowerBound p xs := by
      simp only [List.length_take] at hi
      omega
    exact (hb.iff_lt hp i _).mpr hlt
  have hout : (xs.drop (lowerBound p xs)).filter p = [] := by
    rw [List.filter_eq_nil_iff]
    intro x hx hpx
    obtain ⟨i, hi, rfl⟩ := List.mem_iff_getElem.mp hx
    rw [List.getElem_drop] at hpx
    have := (hb.iff_lt hp _ _).mp hpx
    omega
  conv_rhs => rw [← List.take_append_drop (lowerBound p xs) xs]
  rw [List.filter_append, hin, hout, List.append_nil]

/-- The rest is where `p` fails. -/
theorem drop_lowerBound {p : α → Bool} {xs : List α} (hp : Partitioned p xs) :
    xs.drop (lowerBound p xs) = xs.filter fun x => !p x := by
  have hb := lowerBound_boundary p xs
  have hin : (xs.drop (lowerBound p xs)).filter (fun x => !p x)
      = xs.drop (lowerBound p xs) := by
    rw [List.filter_eq_self]
    intro x hx
    obtain ⟨i, hi, rfl⟩ := List.mem_iff_getElem.mp hx
    rw [List.getElem_drop]
    have hge : ¬ lowerBound p xs + i < lowerBound p xs := by omega
    have hlt : lowerBound p xs + i < xs.length := by
      simp only [List.length_drop] at hi
      omega
    have := mt (hb.iff_lt hp _ hlt).mp hge
    simpa using this
  have hout : (xs.take (lowerBound p xs)).filter (fun x => !p x) = [] := by
    rw [take_lowerBound hp, List.filter_filter]
    simp
  conv_rhs => rw [← List.take_append_drop (lowerBound p xs) xs]
  rw [List.filter_append, hin, hout, List.nil_append]

/-- Two ranges on which the predicates agree position by position have the
same lower bound, partitioned or not. -/
theorem loop_congr {β : Type*} {p : α → Bool} {q : β → Bool} {xs : List α} {ys : List β}
    (h : xs.map p = ys.map q) :
    ∀ fuel first len, loop p xs fuel first len = loop q ys fuel first len := by
  intro fuel
  induction fuel with
  | zero => intro first len; rfl
  | succ fuel ih =>
      intro first len
      have hget : (xs[first + len / 2]?).map p = (ys[first + len / 2]?).map q := by
        rw [← List.getElem?_map, ← List.getElem?_map, h]
      -- both loops probe the same position, and get the same answer there
      rcases hx : xs[first + len / 2]? with - | x <;>
        rcases hy : ys[first + len / 2]? with - | y <;>
        simp only [hx, hy, Option.map_none, Option.map_some, reduceCtorEq,
          Option.some.injEq] at hget
      · simp [loop, hx, hy]
      · simp only [loop, hx, hy, hget, ih]

theorem lowerBound_congr {β : Type*} {p : α → Bool} {q : β → Bool} {xs : List α}
    {ys : List β} (h : xs.map p = ys.map q) : lowerBound p xs = lowerBound q ys := by
  have hlen : xs.length = ys.length := by simpa using congrArg List.length h
  simp only [lowerBound, hlen, loop_congr h]

end Bisect
