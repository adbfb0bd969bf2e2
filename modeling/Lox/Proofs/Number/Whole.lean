import Lox.Number.Style
import Lox.Proofs.Number.Binary64
import Lox.Proofs.Number.Numeral

/-!
# Whole numbers are written as their digits

A whole number below `10 ^ 15` is converted to an integer and written as its decimal digits. These are
the digits of the shortest decimal that reads back as it: the number has at most fifteen digits, so
the search for that decimal comes to an end at its units; and before that only a multiple of a power
of ten reads back as it, since all whole numbers below `2 ^ 53` have patterns of their own.

## Main results

* `Binary64.magnitude_nearest_whole`: whole numbers below `2 ^ 53` are not rounded.
* `Binary64.plain_shortest_of_whole`: the numeral of a whole number.
* `NumberStyle.unsigned_display`: so whole numbers are written as what reads back as them.
* `Number.newline_notMem_write`: the text of a number is on one line.
-/

namespace Lox

namespace Decimal

/-- Zeros behind the digits of a number. -/
theorem toDigits_mul_pow {n : Nat} (hn : 0 < n) (zeros : Nat) :
    Nat.toDigits 10 n ++ List.replicate zeros '0' = Nat.toDigits 10 (n * 10 ^ zeros) := by
  induction zeros with
  | zero => simp
  | succ zeros ih =>
    have hpos : 0 < n * 10 ^ zeros := Nat.mul_pos hn (Nat.pow_pos (by decide))
    have hlast : Nat.toDigits 10 0 = ['0'] := rfl
    have hnext : n * 10 ^ (zeros + 1) = 10 * (n * 10 ^ zeros) + 0 := by
      rw [Nat.pow_succ, ← Nat.mul_assoc, Nat.mul_comm, Nat.add_zero]
    rw [List.replicate_succ', ← List.append_assoc, ih, hnext,
      ← Nat.toDigits_append_toDigits (by decide) hpos (by decide), hlast]

/-- A decimal without places is written as a whole number, with or without zeros at the end of its
digits. -/
theorem plain_trim_of_whole {n : Nat} (hn : 0 < n) (zeros : Nat) :
    plain (trim ⟨n, zeros⟩) = Nat.toDigits 10 (n * 10 ^ zeros) := by
  induction n using Nat.strongRecOn generalizing zeros with
  | ind n ih =>
    rw [trim, if_neg (Nat.ne_of_gt hn)]
    by_cases hten : n % 10 = 0
    · have hdigits : n / 10 * 10 = n := Nat.div_mul_cancel (Nat.dvd_of_mod_eq_zero hten)
      have hpos : 0 < n / 10 := by omega
      have hshift : n / 10 * 10 ^ (zeros + 1) = n * 10 ^ zeros := by
        rw [Nat.pow_succ', ← Nat.mul_assoc, hdigits]
      rw [if_pos hten]
      exact (ih (n / 10) (by omega) hpos (zeros + 1)).trans (congrArg _ hshift)
    · rw [if_neg hten]
      exact toDigits_mul_pow hn zeros

end Decimal

namespace Binary64

variable {n p : Nat}

/-! ### Whole numbers -/

/-- **A whole number below `2 ^ 53`** has a pattern. -/
theorem exists_whole (hn : n < 2 ^ 53) :
    ∃ p < infinity, magnitude p = n * 2 ^ unitExponent := by
  rcases Nat.eq_zero_or_pos n with rfl | hpos
  · exact ⟨0, by decide, (Nat.zero_mul _).symm⟩
  · have hlog : n.log2 < 53 := (Nat.log2_lt (Nat.ne_of_gt hpos)).mpr hn
    have hbounds : 2 ^ n.log2 ≤ n ∧ n < 2 ^ (n.log2 + 1) :=
      (Nat.log2_eq_iff (Nat.ne_of_gt hpos)).mp rfl
    have hlow : 2 ^ n.log2 * 2 ^ (52 - n.log2) = 2 ^ 52 := by
      rw [← Nat.pow_add, Nat.add_sub_cancel' (by omega)]
    have hhigh : 2 ^ (n.log2 + 1) * 2 ^ (52 - n.log2) = 2 ^ 53 := by
      rw [← Nat.pow_add]
      congr 1
      omega
    have hscale := Nat.two_pow_pos (52 - n.log2)
    have hsignificand : IsSignificand (1022 + n.log2) (n * 2 ^ (52 - n.log2)) := by
      constructor
      · rw [← hhigh]
        exact (Nat.mul_lt_mul_right hscale).mpr hbounds.2
      · intro
        rw [← hlow]
        exact Nat.mul_le_mul_right _ hbounds.1
    refine ⟨_, ?_, (magnitude_eq hsignificand).trans ?_⟩
    · have hlt := hsignificand.1
      show _ < 0x7FF * 2 ^ 52
      omega
    · have hexponent : 52 - n.log2 + (1022 + n.log2) = unitExponent := by
        rw [unitExponent]
        omega
      rw [Nat.mul_assoc, ← Nat.pow_add, hexponent]

/-- **Whole numbers below `2 ^ 53`** are not rounded. -/
theorem magnitude_nearest_whole (hn : n < 2 ^ 53) :
    magnitude (nearest n 1) = n * 2 ^ unitExponent := by
  obtain ⟨p, hfinite, hp⟩ := exists_whole hn
  rw [nearest_magnitude hfinite Nat.one_pos (by rw [hp, Nat.mul_one]), hp]

/-- A whole number reads back as the pattern of another only if they are the same. -/
theorem nearest_whole_eq_iff {m : Nat} (hm : m < 2 ^ 53)
    (hp : magnitude p = n * 2 ^ unitExponent) : nearest m 1 = p ↔ m = n := by
  have hm := magnitude_nearest_whole hm
  constructor
  · rintro rfl
    exact Nat.eq_of_mul_eq_mul_right (Nat.two_pow_pos unitExponent) (hm.symm.trans hp)
  · rintro rfl
    exact strictMono_magnitude.injective (hm.trans hp.symm)

/-! ### The number of digits -/

theorem digitCount_le (n : Nat) : digitCount n ≤ n.log2 * 1233 / 4096 + 2 := by
  simp only [digitCount]
  split
  · omega
  · split <;> omega

/-- A number that is not below a power of ten has more digits than its exponent, if the estimate
comes near. -/
theorem lt_digitCount {places : Nat} (hle : 10 ^ places ≤ n)
    (hestimate : places ≤ n.log2 * 1233 / 4096 + 1) : places < digitCount n := by
  have hbelow : ∀ e, n < Nat.pow 10 e → places < e := fun e h =>
    (Nat.pow_lt_pow_iff_right (by decide)).mp (Nat.lt_of_le_of_lt hle h)
  simp only [digitCount]
  split
  · next h => exact hbelow _ h
  · split
    · next h => exact hbelow _ h
    · omega

/-! ### The search for the shortest decimal -/

/-- Cutting fewer and fewer digits comes to an end at the units, or at zeros before them. -/
theorem exists_findSome?_cut (cut : Nat → Option Decimal) {places size : Nat}
    (hsize : places < size ∧ size ≤ places + 16)
    (hcut : ∀ zeros ≤ 15, cut (places + zeros) =
      if 10 ^ zeros ∣ n then some ⟨n / 10 ^ zeros, zeros⟩ else none) :
    ∃ zeros : Nat, 10 ^ zeros ∣ n ∧
      (List.range 17).findSome? (fun k => cut (size - (k + 1))) = some ⟨n / 10 ^ zeros, zeros⟩ := by
  obtain ⟨more, rfl⟩ : ∃ more, size = places + (more + 1) := ⟨size - places - 1, by omega⟩
  -- With `more + 1` digits the units are reached, so that no more than these are needed.
  have hsplit : List.range 17 =
      List.range (more + 1) ++ (List.range (16 - more)).map (more + 1 + ·) := by
    rw [← List.range_add]
    congr 1
    omega
  have hdigits : ∀ k ≤ more, cut (places + (more + 1) - (k + 1)) =
      if 10 ^ (more - k) ∣ n then some ⟨n / 10 ^ (more - k), (more - k : Nat)⟩ else none := by
    intro k hk
    have hleft : places + (more + 1) - (k + 1) = places + (more - k) := by omega
    rw [hleft, hcut _ (by omega)]
  have hsome : ((List.range (more + 1)).findSome? fun k =>
      cut (places + (more + 1) - (k + 1))).isSome := by
    rw [List.findSome?_isSome_iff]
    refine ⟨more, List.mem_range.mpr (Nat.lt_succ_self more), ?_⟩
    rw [hdigits more (Nat.le_refl _), Nat.sub_self, Nat.pow_zero, if_pos (Nat.one_dvd n)]
    rfl
  obtain ⟨d, hd⟩ := Option.isSome_iff_exists.mp hsome
  obtain ⟨k, hk, hfound⟩ := List.exists_of_findSome?_eq_some hd
  rw [hdigits k (Nat.le_of_lt_succ (List.mem_range.mp hk))] at hfound
  split at hfound
  · next hdvd =>
    refine ⟨more - k, hdvd, ?_⟩
    rw [hsplit, List.findSome?_append, hd, hfound]
    rfl
  · exact absurd hfound nofun

section Search

variable (hn : n < 10 ^ 15) (hp : magnitude p = n * 2 ^ unitExponent)

include hp

theorem exactDecimal_of_whole :
    exactDecimal p = ⟨n * 10 ^ unitExponent, -unitExponent⟩ := by
  rw [exactDecimal, hp, Nat.pow_eq, Nat.mul_assoc, ← Nat.mul_pow]

include hn

/-- A neighbour with zeros instead of the last digits is taken if these are zeros. -/
theorem readBackNeighbour?_of_whole {zeros : Nat} (hzeros : zeros ≤ 15) :
    readBackNeighbour? p (exactDecimal p) (unitExponent + zeros) =
      if 10 ^ zeros ∣ n then some ⟨n / 10 ^ zeros, zeros⟩ else none := by
  have hpow : 10 ^ zeros ≤ 10 ^ 15 := Nat.pow_le_pow_right (by decide) hzeros
  have hpos : 0 < 10 ^ zeros := Nat.pow_pos (by decide)
  have hdigits : n * 10 ^ unitExponent / 10 ^ (unitExponent + zeros) = n / 10 ^ zeros := by
    rw [Nat.pow_add, Nat.mul_comm (10 ^ unitExponent),
      Nat.mul_div_mul_right _ _ (Nat.pow_pos (by decide))]
  have hexponent : -(unitExponent : Int) + (unitExponent + zeros : Nat) = (zeros : Int) := by omega
  have hreads : ∀ m : Nat, m * 10 ^ zeros < 2 ^ 53 →
      (ofDecimal ⟨m, zeros⟩ = p ↔ m * 10 ^ zeros = n) := fun m hm => nearest_whole_eq_iff hm hp
  have hbelow : n / 10 ^ zeros * 10 ^ zeros ≤ n := Nat.div_mul_le_self n _
  have habove : n < (n / 10 ^ zeros + 1) * 10 ^ zeros :=
    Nat.lt_mul_of_div_lt (Nat.lt_succ_self _) hpos
  have hlower := hreads (n / 10 ^ zeros) (by omega)
  have hupper := hreads (n / 10 ^ zeros + 1) (by rw [Nat.add_mul]; omega)
  have hdvd : n / 10 ^ zeros * 10 ^ zeros = n ↔ 10 ^ zeros ∣ n :=
    ⟨fun heq => heq ▸ Nat.dvd_mul_left _ _, Nat.div_mul_cancel⟩
  have hupper : (ofDecimal ⟨n / 10 ^ zeros + 1, zeros⟩ == p) = false :=
    beq_eq_false_iff_ne.mpr fun heq => Nat.ne_of_gt habove (hupper.mp heq)
  simp only [readBackNeighbour?, exactDecimal_of_whole hp, Nat.pow_eq, hdigits, hexponent, hupper]
  by_cases hzeros : 10 ^ zeros ∣ n
  · rw [if_pos hzeros, beq_iff_eq.mpr (hlower.mpr (hdvd.mpr hzeros))]
  · rw [if_neg hzeros, beq_eq_false_iff_ne.mpr fun heq => hzeros (hdvd.mp (hlower.mp heq))]

omit hp in
/-- The exact decimal of a whole number has 1074 places, and not more than sixteen digits before
them. -/
theorem digitCount_of_whole (hpos : 0 < n) : unitExponent < digitCount (n * 10 ^ unitExponent) ∧
    digitCount (n * 10 ^ unitExponent) ≤ unitExponent + 16 := by
  have hunit : unitExponent = 1074 := rfl
  obtain ⟨low, hlow, hfew⟩ : ∃ low, 2 ^ low ≤ 10 ^ unitExponent ∧ 3567 ≤ low :=
    ⟨3567, by decide +kernel, Nat.le_refl _⟩
  obtain ⟨high, hhigh, hmany⟩ : ∃ high, 10 ^ (unitExponent + 15) ≤ 2 ^ high ∧ high ≤ 3618 :=
    ⟨3618, by decide +kernel, Nat.le_refl _⟩
  generalize unitExponent = places at hunit hlow hhigh ⊢
  have hle : 10 ^ places ≤ n * 10 ^ places := Nat.le_mul_of_pos_left _ hpos
  have hlt : n * 10 ^ places < 10 ^ (places + 15) := by
    rw [Nat.pow_add, Nat.mul_comm]
    exact (Nat.mul_lt_mul_left (Nat.pow_pos (by decide))).mpr hn
  have hne : n * 10 ^ places ≠ 0 := (Nat.mul_pos hpos (Nat.pow_pos (by decide))).ne'
  have hlogLow : low ≤ (n * 10 ^ places).log2 := (Nat.le_log2 hne).mpr (Nat.le_trans hlow hle)
  have hlogHigh : (n * 10 ^ places).log2 < high :=
    (Nat.log2_lt hne).mpr (Nat.lt_of_lt_of_le hlt hhigh)
  constructor
  · exact lt_digitCount hle (by omega)
  · have hestimate := digitCount_le (n * 10 ^ places)
    omega

/-- **The numeral of a whole number** is that of its digits. -/
theorem plain_shortest_of_whole : (shortest p).plain = Nat.toDigits 10 n := by
  rcases Nat.eq_zero_or_pos n with rfl | hpos
  · have hzero : p = 0 := strictMono_magnitude.injective (hp.trans (Nat.zero_mul _))
    rw [hzero]
    decide +kernel
  · have hsize := digitCount_of_whole hn hpos
    have hexact : (exactDecimal p).digits = n * 10 ^ unitExponent := by
      rw [exactDecimal_of_whole hp]
    rw [← hexact] at hsize
    obtain ⟨zeros, hdvd, hfound⟩ :=
      exists_findSome?_cut _ hsize fun _ => readBackNeighbour?_of_whole hn hp
    have hquotient : 0 < n / 10 ^ zeros :=
      Nat.div_pos (Nat.le_of_dvd hpos hdvd) (Nat.pow_pos (by decide))
    simp only [shortest, hfound, Option.getD_some]
    rw [Decimal.plain_trim_of_whole hquotient, Nat.div_mul_cancel hdvd]

end Search

end Binary64

/-- **The text of a number without its sign** is a word or a numeral: the numeral of a whole number is
the integer that it is, and so nothing depends on which of the two is written. -/
theorem NumberStyle.unsigned_display (pattern : Nat) :
    display.unsigned pattern = if pattern = Binary64.infinity then ['i', 'n', 'f']
      else (Binary64.shortest pattern).plain := by
  rw [unsigned]
  split
  · rfl
  · split
    · next hwhole =>
      generalize hunit : Nat.pow 2 Binary64.unitExponent = unit at hwhole ⊢
      have hvalue : Binary64.magnitude pattern =
          Binary64.magnitude pattern / unit * 2 ^ Binary64.unitExponent := by
        rw [← Nat.pow_eq, hunit, Nat.div_mul_cancel (Nat.dvd_of_mod_eq_zero hwhole.1)]
      exact (Binary64.plain_shortest_of_whole hwhole.2 hvalue).symm
    · simp [decimal, display]

/-- The text of a number is on one line. -/
theorem Number.newline_notMem_write (x : Float) :
    '\n' ∉ (Number.write .display x).toList := by
  have hunsigned : '\n' ∉ NumberStyle.display.unsigned (Number.pattern x) := by
    rw [NumberStyle.unsigned_display]
    split
    · decide
    · intro hmem
      rcases (Decimal.hasText_plain _).mem_number hmem with hdigit | hpoint
      · exact absurd hdigit (by decide)
      · exact absurd hpoint (by decide)
  rw [Number.write]
  split
  · decide
  · split
    · simpa using hunsigned
    · simpa using hunsigned

end Lox
