import Lox.Number.Binary64
import Mathlib.Algebra.Ring.Nat
import Mathlib.Order.Monotone.Basic

/-!
# Rounding what is exact

Magnitudes increase with the pattern, and the pattern below a magnitude is the one it belongs to. So
the number nearest to a fraction that is a magnitude is that number, and as only the value of a
fraction counts, it may be expanded.

## Main definitions

* `Binary64.IsSignificand`: what can be counted in the spacing of a block.

## Main results

* `Binary64.strictMono_magnitude`: the order of patterns is that of values.
* `Binary64.floorPattern_magnitude`, `Binary64.nearest_magnitude`: what is exact is not rounded.
* `Binary64.nearest_mul`: a fraction may be expanded.
-/

namespace Lox

namespace Binary64

variable {significand block : Nat}

/-! ### Magnitudes -/

/-- What can be counted in the spacing of a block: less than `2 ^ 53`, and at least `2 ^ 52` if the
spacing has doubled before. -/
def IsSignificand (block significand : Nat) : Prop :=
  significand < 2 ^ 53 ∧ (0 < block → 2 ^ 52 ≤ significand)

/-- Every pattern counts something in the spacing of some block. -/
theorem exists_isSignificand (pattern : Nat) : ∃ block significand,
    IsSignificand block significand ∧ pattern = significand + block * 2 ^ 52 := by
  have hdiv := Nat.div_add_mod pattern (2 ^ 52)
  have hmod := Nat.mod_lt pattern (Nat.two_pow_pos 52)
  refine ⟨pattern / 2 ^ 52 - 1, pattern - (pattern / 2 ^ 52 - 1) * 2 ^ 52, ⟨?_, ?_⟩, ?_⟩ <;> omega

theorem magnitude_eq (h : IsSignificand block significand) :
    magnitude (significand + block * 2 ^ 52) = significand * 2 ^ block := by
  have hblock : (significand + block * 2 ^ 52) / 2 ^ 52 - 1 = block := by
    obtain ⟨hlt, hge⟩ := h
    omega
  show (significand + block * 2 ^ 52 - ((significand + block * 2 ^ 52) / 2 ^ 52 - 1) * 2 ^ 52) *
    2 ^ ((significand + block * 2 ^ 52) / 2 ^ 52 - 1) = _
  rw [hblock, Nat.add_sub_cancel]

/-- The last number of a block is followed by the first of the next, which has twice the spacing. -/
theorem magnitude_lt_succ (pattern : Nat) : magnitude pattern < magnitude (pattern + 1) := by
  obtain ⟨block, significand, h, rfl⟩ := exists_isSignificand pattern
  have hpow := Nat.two_pow_pos block
  rw [magnitude_eq h]
  rcases Nat.lt_or_eq_of_le (Nat.succ_le_of_lt h.1) with hlt | hlast
  · have hnext : IsSignificand block (significand + 1) := ⟨hlt, fun hpos => by
      have := h.2 hpos
      omega⟩
    rw [Nat.add_right_comm, magnitude_eq hnext]
    exact (Nat.mul_lt_mul_right hpow).mpr (Nat.lt_succ_self significand)
  · have hnext : IsSignificand (block + 1) (2 ^ 52) := ⟨by decide, fun _ => Nat.le_refl _⟩
    have hpattern : significand + block * 2 ^ 52 + 1 = 2 ^ 52 + (block + 1) * 2 ^ 52 := by omega
    have hdouble : 2 ^ 52 * 2 ^ (block + 1) = (significand + 1) * 2 ^ block := by
      rw [show significand + 1 = 2 ^ 53 from hlast, ← Nat.pow_add, ← Nat.pow_add,
        Nat.add_left_comm, Nat.add_comm]
    rw [hpattern, magnitude_eq hnext, hdouble]
    exact (Nat.mul_lt_mul_right hpow).mpr (Nat.lt_succ_self significand)

/-- **The order of patterns is that of values.** -/
theorem strictMono_magnitude : StrictMono magnitude :=
  strictMono_nat_of_lt_succ magnitude_lt_succ

/-- The size of a magnitude tells the block. -/
theorem log2_magnitude (h : IsSignificand block significand) :
    (significand * 2 ^ block).log2 - 52 = block := by
  rcases Nat.eq_zero_or_pos block with rfl | hpos
  · rw [Nat.pow_zero, Nat.mul_one, Nat.sub_eq_zero_iff_le]
    rcases Nat.eq_zero_or_pos significand with rfl | hsignificand
    · decide
    · exact Nat.le_of_lt_succ ((Nat.log2_lt (Nat.ne_of_gt hsignificand)).mpr h.1)
  · have hge := h.2 hpos
    have hne : significand * 2 ^ block ≠ 0 :=
      Nat.mul_ne_zero (by omega) (Nat.ne_of_gt (Nat.two_pow_pos block))
    have hlog : (significand * 2 ^ block).log2 = 52 + block := by
      refine (Nat.log2_eq_iff hne).mpr ⟨?_, ?_⟩
      · rw [Nat.pow_add]
        exact Nat.mul_le_mul_right _ hge
      · rw [Nat.add_right_comm, Nat.pow_add]
        exact (Nat.mul_lt_mul_right (Nat.two_pow_pos block)).mpr h.1
    rw [hlog, Nat.add_sub_cancel_left]

/-- **The pattern below a magnitude is its own.** -/
theorem floorPattern_magnitude (pattern : Nat) : floorPattern (magnitude pattern) = pattern := by
  obtain ⟨block, significand, h, rfl⟩ := exists_isSignificand pattern
  rw [magnitude_eq h]
  show significand * 2 ^ block / 2 ^ ((significand * 2 ^ block).log2 - 52) +
    ((significand * 2 ^ block).log2 - 52) * 2 ^ 52 = _
  rw [log2_magnitude h, Nat.mul_div_cancel _ (Nat.two_pow_pos _)]

/-! ### Rounding -/

variable {num den : Nat}

/-- **A fraction may be expanded.** -/
theorem nearest_mul {factor : Nat} (hfactor : 0 < factor) (num den : Nat) :
    nearest (factor * num) (factor * den) = nearest num den := by
  have hcompare : ∀ m n : Nat, compare (factor * m) (factor * n) = compare m n := by
    intro m n
    rw [Nat.compare_eq_ite_lt, Nat.compare_eq_ite_lt]
    simp only [Nat.mul_lt_mul_left hfactor]
  simp only [nearest]
  rw [Nat.mul_assoc, Nat.mul_div_mul_left _ _ hfactor, Nat.mul_left_comm 2 factor,
    Nat.mul_left_comm _ factor den, hcompare]

/-- **What is exact is not rounded.** -/
theorem nearest_magnitude {pattern : Nat} (hfinite : pattern < infinity) (hden : 0 < den)
    (h : num * 2 ^ unitExponent = magnitude pattern * den) : nearest num den = pattern := by
  have hbelow : 2 * (magnitude pattern * den) <
      (magnitude pattern + magnitude (pattern + 1)) * den := by
    rw [← Nat.mul_assoc]
    refine (Nat.mul_lt_mul_right hden).mpr ?_
    have := magnitude_lt_succ pattern
    omega
  have hscaled : num * Nat.pow 2 unitExponent = magnitude pattern * den := by
    generalize unitExponent = places at h ⊢
    exact h
  simp only [nearest]
  rw [hscaled, Nat.mul_div_cancel _ hden, floorPattern_magnitude,
    if_neg (Nat.not_le.mpr hfinite), Nat.compare_eq_lt.mpr hbelow]

end Binary64

end Lox
