/-
BoltCpp/Lib/PairCode.lean

Codes that write every symbol as two digits.

A code is given by `f`, which writes a symbol, and `g`, which reads two digits
and may refuse them.  What the two do on single symbols carries over to
strings: `decode` undoes `encode` (`decode_encode`), it accepts the strings of
even length over the digits that `g` accepts (`isSome_decode_iff`), and if
there are several spellings of a digit, `encode` gives back the normal one
(`encode_of_decode`).
-/
import Mathlib.Data.List.Basic

namespace PairCode

variable {α σ : Type*} {f : α → σ × σ} {g : σ → σ → Option α}

def encode (f : α → σ × σ) (s : List α) : List σ :=
  s.flatMap fun a => [(f a).1, (f a).2]

def decode (g : σ → σ → Option α) : List σ → Option (List α)
  | [] => some []
  | [_] => none
  | x :: y :: t => (g x y).bind fun a => (decode g t).map (a :: ·)

theorem encode_cons (f : α → σ × σ) (a : α) (s : List α) :
    encode f (a :: s) = (f a).1 :: (f a).2 :: encode f s := rfl

/-- What is written can be read. -/
theorem decode_encode (h : ∀ a, g (f a).1 (f a).2 = some a) (s : List α) :
    decode g (encode f s) = some s := by
  induction s with
  | nil => rfl
  | cons a s ih => rw [encode_cons, decode, h, ih, Option.bind_some, Option.map_some]

/-- What can be read. -/
theorem isSome_decode_iff {P : σ → Prop} (h : ∀ x y, (g x y).isSome = true ↔ P x ∧ P y)
    (t : List σ) : (decode g t).isSome = true ↔ t.length % 2 = 0 ∧ ∀ x ∈ t, P x := by
  induction t using decode.induct with
  | case1 => simp [decode]
  | case2 => simp [decode]
  | case3 x y t ih =>
      have hpair := h x y
      have hlen : (x :: y :: t).length % 2 = t.length % 2 := by
        rw [List.length_cons, List.length_cons, Nat.add_assoc, Nat.add_mod_right]
      rw [decode, hlen, List.forall_mem_cons, List.forall_mem_cons]
      rcases hg : g x y with - | a
      · rw [hg] at hpair
        simp only [Option.isSome_none, Bool.false_eq_true, false_iff] at hpair
        simp only [Option.bind_none, Option.isSome_none, Bool.false_eq_true, false_iff]
        rintro ⟨-, hx, hy, -⟩
        exact hpair ⟨hx, hy⟩
      · rw [hg] at hpair
        obtain ⟨hx, hy⟩ := hpair.mp rfl
        rw [Option.bind_some, Option.isSome_map, ih]
        simp only [hx, hy, true_and]

/-- What is read can be written again, with every digit in its normal
spelling `u`. -/
theorem encode_of_decode {u : σ → σ} (h : ∀ x y a, g x y = some a → f a = (u x, u y))
    (t : List σ) : ∀ s, decode g t = some s → encode f s = t.map u := by
  induction t using decode.induct with
  | case1 =>
      intro s hs
      obtain rfl := Option.some.inj hs
      rfl
  | case2 =>
      intro s hs
      cases hs
  | case3 x y t ih =>
      intro s hs
      obtain ⟨a, ha, hs⟩ := Option.bind_eq_some_iff.mp hs
      obtain ⟨s', hs', rfl⟩ := Option.map_eq_some_iff.mp hs
      rw [encode_cons, h x y a ha, ih s' hs', List.map_cons, List.map_cons]

end PairCode
