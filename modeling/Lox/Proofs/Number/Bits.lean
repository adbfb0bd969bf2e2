import Lox.Number.Style
import Mathlib

/-!
# Numbers and their bits

The pattern of a number holds what its exponent and its significand are, and only its sign is left
out. So finite numbers, infinities and what is not a number are told apart by their patterns; a number
is known by its pattern and its sign; and the number with the same pattern and no sign is its absolute
value.

## Main results

* `Number.isFinite_iff`, `Number.isNaN_iff`: what a pattern tells.
* `Number.ext`: pattern and sign make the number.
* `Number.ofPattern_pattern`: the absolute value.
-/

namespace Lox

namespace Number

open Float.Model (UnpackedFloat)
open Float.Model.UnpackedFloat

/-- The words that the bits of a number are in. -/
abbrev Word := BitVec Float.Model.Format.binary64.numBits

variable {w : Word}

/-! ### The parts of a word -/

theorem toNat_unpackExponent (w : Word) : (unpackExponent w).toNat = w.toNat % 2 ^ 63 / 2 ^ 52 := by
  rw [unpackExponent_def, BitVec.extractLsb'_toNat, Nat.shiftRight_eq_div_pow]
  show w.toNat / 2 ^ 52 % 2 ^ 11 = _
  omega

theorem toNat_unpackMantissa (w : Word) : (unpackMantissa w).toNat = w.toNat % 2 ^ 63 % 2 ^ 52 := by
  rw [unpackMantissa_def, BitVec.extractLsb'_toNat, Nat.shiftRight_eq_div_pow]
  show w.toNat / 2 ^ 0 % 2 ^ 52 = _
  omega

theorem toNat_unpackSign (w : Word) : (unpackSign w).toNat = w.toNat / 2 ^ 63 := by
  have hlt := w.isLt
  rw [unpackSign_def, BitVec.extractLsb'_toNat, Nat.shiftRight_eq_div_pow]
  show w.toNat / 2 ^ 63 % 2 ^ 1 = _
  change w.toNat < 2 ^ 64 at hlt
  omega

/-- The exponent of a word that is not of a finite number. -/
def lastExponent : BitVec Float.Model.Format.binary64.exponentBits := BitVec.ofNat _ 0x7FF

theorem unpackExponent_eq_iff :
    unpackExponent w = lastExponent ↔ w.toNat % 2 ^ 63 / 2 ^ 52 = 0x7FF := by
  rw [← BitVec.toNat_inj, toNat_unpackExponent]
  exact Iff.rfl

theorem unpackMantissa_eq_iff :
    unpackMantissa w = BitVec.ofNat _ 0 ↔ w.toNat % 2 ^ 63 % 2 ^ 52 = 0 := by
  rw [← BitVec.toNat_inj, toNat_unpackMantissa]
  exact Iff.rfl

/-! ### What a pattern tells -/

theorem isFinite_unpack_iff :
    (unpack .binary64 w).isFinite = true ↔ unpackExponent w ≠ lastExponent := by
  rw [unpack]
  split
  · next hlast => split <;> simp [isFinite, show unpackExponent w = lastExponent from hlast]
  · next hbefore =>
    refine iff_of_true ?_ hbefore
    split
    · split <;> rfl
    · rfl

theorem isNaN_unpack_iff : (unpack .binary64 w).isNaN = true ↔
    unpackExponent w = lastExponent ∧ unpackMantissa w ≠ BitVec.ofNat _ 0 := by
  rw [unpack]
  split
  · next hlast =>
    split
    · next hzero => exact iff_of_false (by simp [isNaN]) fun h => h.2 hzero
    · next hne => exact iff_of_true rfl ⟨hlast, hne⟩
  · next hbefore =>
    refine iff_of_false ?_ fun h => hbefore h.1
    split
    · split <;> simp [isNaN]
    · simp [isNaN]

/-- Infinity is the first pattern with the last exponent. -/
theorem lt_infinity_iff {p : Nat} (hp : p < 2 ^ 63) :
    (p < Binary64.infinity ↔ p / 2 ^ 52 ≠ 0x7FF) ∧
      (Binary64.infinity < p ↔ p / 2 ^ 52 = 0x7FF ∧ p % 2 ^ 52 ≠ 0) := by
  have hinfinity : Binary64.infinity = 0x7FF * 2 ^ 52 := rfl
  omega

/-- The pattern of a word tells whether the number is finite, and whether it is a number. -/
theorem isFinite_unpack (w : Word) :
    ((unpack .binary64 w).isFinite = true ↔ w.toNat % 2 ^ 63 < Binary64.infinity) ∧
      ((unpack .binary64 w).isNaN = true ↔ Binary64.infinity < w.toNat % 2 ^ 63) := by
  obtain ⟨hbelow, habove⟩ := lt_infinity_iff (Nat.mod_lt w.toNat (Nat.two_pow_pos 63))
  rw [isFinite_unpack_iff, isNaN_unpack_iff, ne_eq, ne_eq, unpackExponent_eq_iff,
    unpackMantissa_eq_iff, hbelow, habove]
  exact ⟨Iff.rfl, Iff.rfl⟩

variable {x y : Float}

theorem isFinite_iff : x.isFinite = true ↔ pattern x < Binary64.infinity :=
  (isFinite_unpack x.toBits.toBitVec).1

theorem isNaN_iff : x.isNaN = true ↔ Binary64.infinity < pattern x :=
  (isFinite_unpack x.toBits.toBitVec).2

theorem toNat_toBits (x : Float) :
    x.toBits.toNat = pattern x + if isNegative x then 2 ^ 63 else 0 := by
  have hlt := x.toBits.toNat_lt
  have hdiv := Nat.div_add_mod x.toBits.toNat (2 ^ 63)
  have hmod := Nat.mod_lt x.toBits.toNat (Nat.two_pow_pos 63)
  show _ = x.toBits.toNat % 2 ^ 63 + if decide (2 ^ 63 ≤ x.toBits.toNat) then 2 ^ 63 else 0
  by_cases hsign : 2 ^ 63 ≤ x.toBits.toNat
  · rw [if_pos (decide_eq_true hsign)]
    omega
  · rw [if_neg (by simpa using hsign)]
    omega

/-- **Pattern and sign make the number.** -/
theorem ext (hpattern : pattern x = pattern y) (hsign : isNegative x = isNegative y) : x = y := by
  refine Float.toBits_inj.mp (UInt64.toNat_inj.mp ?_)
  rw [toNat_toBits, toNat_toBits, hpattern, hsign]

/-- A number without sign is the one with its pattern. -/
theorem ofPattern_of_not_isNegative (h : isNegative x = false) : ofPattern (pattern x) = x := by
  have hbits : UInt64.ofNat (pattern x) = x.toBits := by
    rw [← UInt64.ofNat_toNat (x := x.toBits), toNat_toBits, h, if_neg (by decide), Nat.add_zero]
  rw [ofPattern, hbits, Float.ofBits_toBits]

/-! ### Absolute values -/

/-- The word without its sign. -/
def withoutSign (w : Word) : Word := BitVec.ofNat _ (w.toNat % 2 ^ 63)

theorem toNat_withoutSign (w : Word) : (withoutSign w).toNat = w.toNat % 2 ^ 63 := by
  have hlt := Nat.mod_lt w.toNat (Nat.two_pow_pos 63)
  rw [withoutSign, BitVec.toNat_ofNat]
  show w.toNat % 2 ^ 63 % 2 ^ 64 = _
  omega

theorem unpack_withoutSign (w : Word) :
    unpack .binary64 (withoutSign w) = (unpack .binary64 w).abs := by
  have hexponent : unpackExponent (withoutSign w) = unpackExponent w := BitVec.eq_of_toNat_eq (by
    rw [toNat_unpackExponent, toNat_unpackExponent, toNat_withoutSign, Nat.mod_mod])
  have hmantissa : unpackMantissa (withoutSign w) = unpackMantissa w := BitVec.eq_of_toNat_eq (by
    rw [toNat_unpackMantissa, toNat_unpackMantissa, toNat_withoutSign, Nat.mod_mod])
  have hsign : unpackSign (withoutSign w) = 0#1 := BitVec.eq_of_toNat_eq (by
    rw [toNat_unpackSign, toNat_withoutSign]
    exact Nat.div_eq_of_lt (Nat.mod_lt _ (Nat.two_pow_pos 63)))
  rw [unpack, unpack]
  simp only [hexponent, hmantissa, hsign]
  split
  · split <;> rfl
  · split
    · split <;> rfl
    · rfl

/-- **The number with the pattern of another** is its absolute value. -/
theorem ofPattern_pattern (x : Float) : ofPattern (pattern x) = x.abs := by
  have hword : (UInt64.ofNat (pattern x)).toBitVec = withoutSign x.toBits.toBitVec := rfl
  show (⟨Float.Model.pack (unpack .binary64 (UInt64.ofNat (pattern x)).toBitVec)⟩ : Float) =
    ⟨Float.Model.pack (unpack .binary64 x.toBits.toBitVec).abs⟩
  rw [hword, unpack_withoutSign]

/-- The bits of a pattern that is that of a number. -/
theorem toNat_toBits_ofPattern {p : Nat} (h : p ≤ Binary64.infinity) :
    (ofPattern p).toBits.toNat = p := by
  have hinfinity : Binary64.infinity = 0x7FF * 2 ^ 52 := rfl
  let w : Word := BitVec.ofNat 64 p
  have hnat : w.toNat = p := by
    show (BitVec.ofNat 64 p).toNat = p
    rw [BitVec.toNat_ofNat]
    omega
  have hnumber : isNaNBits w = false := by
    rw [isNaNBits, decide_eq_false_iff_not]
    rintro ⟨hlast, hne⟩
    have habove := isNaN_unpack_iff.mpr ⟨hlast, hne⟩
    rw [(isFinite_unpack w).2, hnat, Nat.mod_eq_of_lt (by omega)] at habove
    exact Nat.not_lt.mpr h habove
  have hpack : pack .binary64 (unpack .binary64 w) = w := by
    rw [pack_unpack, hnumber]
    rfl
  show (pack .binary64 (unpack .binary64 w)).toNat = p
  rw [hpack, hnat]

/-- An absolute value has the same pattern and no sign. -/
theorem pattern_abs (h : x.isNaN = false) :
    pattern x.abs = pattern x ∧ isNegative x.abs = false := by
  have hle : pattern x ≤ Binary64.infinity :=
    Nat.not_lt.mp (isNaN_iff.not.mp (Bool.eq_false_iff.mp h))
  have hlt : pattern x < 2 ^ 63 := Nat.mod_lt _ (Nat.two_pow_pos 63)
  have hbits : x.abs.toBits.toNat = pattern x := by
    rw [← ofPattern_pattern, toNat_toBits_ofPattern hle]
  refine ⟨?_, ?_⟩
  · show x.abs.toBits.toNat % 2 ^ 63 = pattern x
    rw [hbits, Nat.mod_eq_of_lt hlt]
  · show decide (2 ^ 63 ≤ x.abs.toBits.toNat) = false
    rw [hbits]
    exact decide_eq_false (Nat.not_le.mpr hlt)

end Number

end Lox
