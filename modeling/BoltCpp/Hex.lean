/-
BoltCpp/Hex.lean

Hexadecimal strings (`slice.cpp`): `ToString(true)` and `DecodeHex`.

A `std::string` is modelled by its bytes, as a `Slice` is.  A `char` is
signed, so bytes above 0x7f are negative when `fromHex` compares them.

Byte by byte, `toHex` and `fromHex` are a pair code with upper-case digits as
its normal spelling; so `DecodeHex` undoes `ToString(true)`, and accepts the
strings of even length over the digits (`hex_bijection`).
-/
import BoltCpp.Slice
import BoltCpp.Lib.PairCode

namespace BoltCpp

open PairCode

/-! ### Digits -/

/-- The value of a character literal. -/
def code (c : Char) : Int := c.toNat

/-- The value of a `char`. -/
def charValue (c : UInt8) : Int := if c.toNat < 128 then c.toNat else (c.toNat : Int) - 256

def toHex (v : UInt8) : UInt8 :=
  if v ≤ 9 then UInt8.ofNat (code '0' + v.toNat).toNat
  else UInt8.ofNat (code 'A' + v.toNat - 10).toNat

def fromHex (ch : UInt8) : Int :=
  let c := charValue ch
  -- toupper
  let c := if c ≥ code 'a' ∧ c ≤ code 'f' then c - (code 'a' - code 'A') else c
  if c < code '0' ∨ (c > code '9' ∧ (c < code 'A' ∨ c > code 'F')) then -1
  else if c ≤ code '9' then c - code '0'
  else c - code 'A' + 10

/-- A character of `0-9A-Fa-f`. -/
def IsHexDigit (c : UInt8) : Prop :=
  (0x30 ≤ c.toNat ∧ c.toNat ≤ 0x39) ∨ (0x41 ≤ c.toNat ∧ c.toNat ≤ 0x46) ∨
    (0x61 ≤ c.toNat ∧ c.toNat ≤ 0x66)

instance (c : UInt8) : Decidable (IsHexDigit c) :=
  inferInstanceAs (Decidable (_ ∨ _ ∨ _))

/-- `a` to `f` in upper case. -/
def upper (c : UInt8) : UInt8 :=
  if 0x61 ≤ c.toNat ∧ c.toNat ≤ 0x66 then c - 0x20 else c

/-- `fromHex` in numbers; `c` is the character in upper case. -/
theorem fromHex_eq {ch : UInt8} {c : Int}
    (hc : (if charValue ch ≥ 97 ∧ charValue ch ≤ 102 then charValue ch - 32
      else charValue ch) = c) :
    fromHex ch
      = if c < 48 ∨ (c > 57 ∧ (c < 65 ∨ c > 70)) then -1
        else if c ≤ 57 then c - 48 else c - 65 + 10 := by
  subst hc
  rfl

theorem toNat_toHex {v : UInt8} (hv : v.toNat < 16) :
    (toHex v).toNat = if v.toNat ≤ 9 then 48 + v.toNat else 55 + v.toNat := by
  have hle : v ≤ 9 ↔ v.toNat ≤ 9 := UInt8.le_iff_toNat_le
  have h0 : code '0' = 48 := rfl
  have hA : code 'A' = 65 := rfl
  rw [toHex, h0, hA]
  by_cases h : v.toNat ≤ 9
  · rw [if_pos (hle.mpr h), if_pos h, UInt8.toNat_ofNat']
    omega
  · rw [if_neg (mt hle.mp h), if_neg h, UInt8.toNat_ofNat']
    omega

theorem toNat_upper (c : UInt8) :
    (upper c).toNat = if 0x61 ≤ c.toNat ∧ c.toNat ≤ 0x66 then c.toNat - 0x20 else c.toNat := by
  rw [upper]
  split
  · rename_i h
    have hle : (0x20 : UInt8) ≤ c := by
      rw [UInt8.le_iff_toNat_le]
      exact Nat.le_trans (by decide) h.1
    exact UInt8.toNat_sub_of_le c 0x20 hle
  · rfl

/-- What `fromHex` gives for a digit. -/
theorem fromHex_of_isHexDigit {c : UInt8} (h : IsHexDigit c) :
    fromHex c = if (upper c).toNat ≤ 57 then ((upper c).toNat : Int) - 48
      else ((upper c).toNat : Int) - 55 := by
  rw [IsHexDigit] at h
  have hc : (if charValue c ≥ 97 ∧ charValue c ≤ 102 then charValue c - 32
      else charValue c) = (upper c).toNat := by
    rw [charValue, toNat_upper]
    split_ifs <;> omega
  rw [fromHex_eq hc, toNat_upper]
  split_ifs <;> omega

theorem fromHex_of_not_isHexDigit {c : UInt8} (h : ¬ IsHexDigit c) : fromHex c = -1 := by
  have hlt := c.toNat_lt
  rw [IsHexDigit] at h
  rw [fromHex_eq rfl, if_pos]
  rw [charValue]
  split_ifs <;> omega

theorem fromHex_nonneg_iff (c : UInt8) : 0 ≤ fromHex c ↔ IsHexDigit c := by
  by_cases h : IsHexDigit c
  · have hup := toNat_upper c
    rw [fromHex_of_isHexDigit h]
    simp only [h, iff_true]
    rw [IsHexDigit] at h
    split_ifs at hup ⊢ <;> omega
  · rw [fromHex_of_not_isHexDigit h]
    simp [h]

theorem fromHex_lt (c : UInt8) : fromHex c < 16 := by
  by_cases h : IsHexDigit c
  · have hup := toNat_upper c
    rw [fromHex_of_isHexDigit h]
    rw [IsHexDigit] at h
    split_ifs at hup ⊢ <;> omega
  · rw [fromHex_of_not_isHexDigit h]
    decide

/-- A digit that is written can be read. -/
theorem fromHex_toHex {v : UInt8} (hv : v.toNat < 16) : fromHex (toHex v) = v.toNat := by
  have hto := toNat_toHex hv
  have hlt := (toHex v).toNat_lt
  have hdigit : IsHexDigit (toHex v) := by
    rw [IsHexDigit, hto]
    split_ifs <;> omega
  have hup : (upper (toHex v)).toNat = (toHex v).toNat := by
    rw [toNat_upper, if_neg]
    rw [hto]
    split_ifs <;> omega
  rw [fromHex_of_isHexDigit hdigit, hup, hto]
  split_ifs <;> omega

/-- A digit that is read is written in upper case. -/
theorem toHex_fromHex {c v : UInt8} (h : IsHexDigit c) (hv : (v.toNat : Int) = fromHex c) :
    toHex v = upper c := by
  have hup := toNat_upper c
  have hlt := fromHex_lt c
  rw [fromHex_of_isHexDigit h] at hv hlt
  apply UInt8.toNat_inj.mp
  rw [toNat_toHex (by omega)]
  rw [IsHexDigit] at h
  split_ifs at hup hv hlt ⊢ <;> omega

/-! ### Strings -/

namespace Slice

/-- `ToString` -/
def ToString (hex : Bool) (s : Slice) : Slice :=
  if hex then
    s.foldl
      (fun (result : Slice) (c : UInt8) =>
        (result ++ [toHex (c >>> 4)]) ++ [toHex (c &&& 0xf)]) []
  else s

/-- The loop of `DecodeHex`.  Nothing is the jump to `failed`; a single
character does not occur, as the length is even. -/
def decodeLoop : Slice → Slice → Option Slice
  | [], result => some result
  | [_], _ => none
  | c1 :: c2 :: s, result =>
      let h1 := fromHex c1
      if h1 < 0 then none
      else
        let h2 := fromHex c2
        if h2 < 0 then none
        else decodeLoop s (result ++ [UInt8.ofNat ((h1.toNat <<< 4) ||| h2.toNat)])

/-- `DecodeHex` -/
def DecodeHex (s : Slice) : Slice × Bool :=
  if s.length % 2 ≠ 0 then ([], false)
  else
    match decodeLoop s [] with
    | some result => (result, true)
    | none => ([], false)

/-- The two digits of a byte. -/
def hexPair (c : UInt8) : UInt8 × UInt8 := (toHex (c >>> 4), toHex (c &&& 0xf))

/-- The byte of two digits. -/
def hexByte (c1 c2 : UInt8) : Option UInt8 :=
  if fromHex c1 < 0 ∨ fromHex c2 < 0 then none
  else some (UInt8.ofNat (((fromHex c1).toNat <<< 4) ||| (fromHex c2).toNat))

theorem ToString_eq (s : Slice) : ToString true s = encode hexPair s := by
  have hfold : ∀ result : Slice,
      s.foldl (fun (result : Slice) (c : UInt8) =>
          (result ++ [toHex (c >>> 4)]) ++ [toHex (c &&& 0xf)]) result
        = result ++ encode hexPair s := by
    induction s with
    | nil => exact fun result => (List.append_nil result).symm
    | cons c s ih =>
        intro result
        rw [List.foldl_cons, ih, encode_cons, hexPair, List.append_assoc, List.append_assoc]
        rfl
  exact hfold []

theorem decodeLoop_eq (s : Slice) :
    ∀ result, decodeLoop s result = (decode hexByte s).map (result ++ ·) := by
  induction s using decode.induct with
  | case1 => intro result; rw [decodeLoop, decode, Option.map_some, List.append_nil]
  | case2 => intro result; rfl
  | case3 c1 c2 s ih =>
      intro result
      simp only [decodeLoop, decode, hexByte]
      by_cases h1 : fromHex c1 < 0
      · simp [h1]
      · by_cases h2 : fromHex c2 < 0
        · simp [h2]
        · simp [h1, h2, ih, Function.comp_def]

/-! #### The code -/

theorem toNat_shiftRight_four (c : UInt8) : (c >>> 4).toNat = c.toNat / 16 := by
  rw [UInt8.toNat_shiftRight, Nat.shiftRight_eq_div_pow]
  rfl

theorem toNat_and_fifteen (c : UInt8) : (c &&& 0xf).toNat = c.toNat % 16 := by
  rw [UInt8.toNat_and]
  exact Nat.and_two_pow_sub_one_eq_mod c.toNat 4

/-- Two digits as one number. -/
theorem toNat_ofNat_or {a b : Nat} (ha : a < 16) (hb : b < 16) :
    (UInt8.ofNat ((a <<< 4) ||| b)).toNat = 16 * a + b := by
  have hor : (a <<< 4) ||| b = 16 * a + b := by
    rw [Nat.shiftLeft_eq, Nat.mul_comm]
    exact (Nat.two_pow_add_eq_or_of_lt (i := 4) (by omega) a).symm
  rw [hor, UInt8.toNat_ofNat']
  omega

theorem hexByte_hexPair (c : UInt8) : hexByte (hexPair c).1 (hexPair c).2 = some c := by
  have hlt := c.toNat_lt
  have h1 : fromHex (hexPair c).1 = ((c.toNat / 16 : Nat) : Int) := by
    rw [← toNat_shiftRight_four]
    exact fromHex_toHex (by rw [toNat_shiftRight_four]; omega)
  have h2 : fromHex (hexPair c).2 = ((c.toNat % 16 : Nat) : Int) := by
    rw [← toNat_and_fifteen]
    exact fromHex_toHex (by rw [toNat_and_fifteen]; omega)
  rw [hexByte, h1, h2, if_neg (by omega), Int.toNat_natCast, Int.toNat_natCast]
  refine congrArg some (UInt8.toNat_inj.mp ?_)
  rw [toNat_ofNat_or (by omega) (by omega)]
  omega

theorem isSome_hexByte_iff (c1 c2 : UInt8) :
    (hexByte c1 c2).isSome = true ↔ IsHexDigit c1 ∧ IsHexDigit c2 := by
  rw [← fromHex_nonneg_iff, ← fromHex_nonneg_iff, hexByte]
  split
  · rename_i h
    simp only [Option.isSome_none, Bool.false_eq_true, false_iff]
    omega
  · rename_i h
    simp only [Option.isSome_some, true_iff]
    omega

theorem hexPair_of_hexByte (c1 c2 c : UInt8) (h : hexByte c1 c2 = some c) :
    hexPair c = (upper c1, upper c2) := by
  have hdigit := (isSome_hexByte_iff c1 c2).mp (by rw [h]; rfl)
  have h1 := (fromHex_nonneg_iff c1).mpr hdigit.1
  have h2 := (fromHex_nonneg_iff c2).mpr hdigit.2
  have hlt1 := fromHex_lt c1
  have hlt2 := fromHex_lt c2
  rw [hexByte, if_neg (by omega)] at h
  obtain rfl := Option.some.inj h
  have hto := toNat_ofNat_or (a := (fromHex c1).toNat) (b := (fromHex c2).toNat)
    (by omega) (by omega)
  generalize UInt8.ofNat (((fromHex c1).toNat <<< 4) ||| (fromHex c2).toNat) = c at *
  rw [hexPair, toHex_fromHex hdigit.1 (by rw [toNat_shiftRight_four]; omega),
    toHex_fromHex hdigit.2 (by rw [toNat_and_fifteen]; omega)]

theorem isSome_decode_hexByte (t : Slice) :
    (decode hexByte t).isSome = true ↔ t.length % 2 = 0 ∧ ∀ c ∈ t, IsHexDigit c :=
  isSome_decode_iff isSome_hexByte_iff t

/-- `DecodeHex` in terms of the code. -/
theorem DecodeHex_eq (t : Slice) :
    DecodeHex t = ((decode hexByte t).getD [], (decode hexByte t).isSome) := by
  by_cases hlen : t.length % 2 = 0
  · rw [DecodeHex, if_neg (not_not.mpr hlen), decodeLoop_eq]
    cases decode hexByte t <;> rfl
  · have hnone : decode hexByte t = none := by
      rw [← Option.not_isSome_iff_eq_none, isSome_decode_hexByte]
      exact fun h => hlen h.1
    rw [DecodeHex, if_pos hlen, hnone]
    rfl

theorem DecodeHex_ToString (s : Slice) : DecodeHex (ToString true s) = (s, true) := by
  rw [DecodeHex_eq, ToString_eq, decode_encode hexByte_hexPair]
  rfl

theorem DecodeHex_ok_iff (t : Slice) :
    (DecodeHex t).2 = true ↔ t.length % 2 = 0 ∧ ∀ c ∈ t, IsHexDigit c := by
  rw [DecodeHex_eq]
  exact isSome_decode_hexByte t

theorem ToString_DecodeHex {t : Slice} (h : (DecodeHex t).2 = true) :
    ToString true (DecodeHex t).1 = t.map upper := by
  rw [DecodeHex_eq] at h ⊢
  obtain ⟨s, hs⟩ := Option.isSome_iff_exists.mp h
  rw [ToString_eq, hs, Option.getD_some]
  exact encode_of_decode hexPair_of_hexByte t s hs

theorem DecodeHex_failed {t : Slice} (h : (DecodeHex t).2 = false) :
    DecodeHex t = ([], false) := by
  rw [DecodeHex_eq] at h ⊢
  have hnone : decode hexByte t = none := by simpa using h
  rw [hnone]
  rfl

/-- **Hex coding is a bijection with its grammar.**  Every byte string is read
back; what is read is an even number of digits, and written again in upper
case; of anything else nothing is left. -/
theorem hex_bijection :
    (∀ s, DecodeHex (ToString true s) = (s, true)) ∧
      ∀ t, ((DecodeHex t).2 = true ↔ t.length % 2 = 0 ∧ ∀ c ∈ t, IsHexDigit c) ∧
        ((DecodeHex t).2 = true → ToString true (DecodeHex t).1 = t.map upper) ∧
        ((DecodeHex t).2 = false → DecodeHex t = ([], false)) :=
  ⟨DecodeHex_ToString, fun t => ⟨DecodeHex_ok_iff t, ToString_DecodeHex, DecodeHex_failed⟩⟩

example : DecodeHex [0x36, 0x33, 0x37, 0x30, 0x37, 0x30] = ([0x63, 0x70, 0x70], true) := by decide

end Slice

end BoltCpp
