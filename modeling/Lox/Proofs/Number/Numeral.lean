import Lox.Number.Binary64
import Lox.Token.Pattern
import Mathlib.Algebra.Ring.Nat
import Mathlib.Data.List.TakeWhile

/-!
# Numerals in plain notation

A decimal in plain notation is a numeral of a source, and reading it gives back the decimal: the same
digits at the same exponent if it has a fraction, and the digits with the zeros behind them if it has
none. The number nearest to what is read is that nearest to the decimal.

## Main results

* `Decimal.hasText_plain`: plain notation is the notation of sources.
* `Decimal.ofDecimal_ofChars_plain`: what is read back.
-/

namespace Lox

namespace Decimal

variable (d : Decimal)

theorem isDigit_of_mem_digitChars {c : Char} (h : c ∈ d.digitChars) : c.isDigit :=
  Nat.isDigit_of_mem_toDigits (by decide) (by decide) h

theorem digitChars_ne_nil : d.digitChars ≠ [] := Nat.toDigits_ne_nil

/-- Before a point and behind it there are digits, which are those given, after some zeros. -/
theorem exists_insertPoint {digits : List Char} (h : ∀ c ∈ digits, c.isDigit) (places : Nat) :
    ∃ zeros whole part, insertPoint digits (places + 1) = whole ++ '.' :: part ∧
      whole ++ part = List.replicate zeros '0' ++ digits ∧ whole ≠ [] ∧
      part.length = places + 1 ∧ ∀ c ∈ whole ++ part, c.isDigit := by
  let zeros := places + 1 + 1 - digits.length
  let padded := List.replicate zeros '0' ++ digits
  have hlength : places + 1 + 1 ≤ padded.length := by
    rw [List.length_append, List.length_replicate]
    omega
  have hdigits : ∀ c ∈ padded, c.isDigit := by
    intro c hc
    rcases List.mem_append.mp hc with hzero | hdigit
    · rw [List.eq_of_mem_replicate hzero]
      rfl
    · exact h c hdigit
  have hsplit := List.take_append_drop (padded.length - (places + 1)) padded
  refine ⟨zeros, padded.take (padded.length - (places + 1)),
    padded.drop (padded.length - (places + 1)), rfl, hsplit, ?_, ?_, ?_⟩
  · refine List.ne_nil_of_length_pos ?_
    rw [List.length_take]
    omega
  · rw [List.length_drop]
    omega
  · rw [hsplit]
    exact hdigits

theorem isDigit_of_mem_append_zeros {zeros : Nat} {c : Char}
    (h : c ∈ d.digitChars ++ List.replicate zeros '0') : c.isDigit := by
  rcases List.mem_append.mp h with hdigit | hzero
  · exact d.isDigit_of_mem_digitChars hdigit
  · rw [List.eq_of_mem_replicate hzero]
    rfl

/-- **Plain notation is the notation of sources.** -/
theorem hasText_plain : TokenKind.number.HasText d.plain := by
  obtain ⟨digits, exponent⟩ := d
  cases exponent with
  | ofNat zeros =>
    exact .whole (List.append_ne_nil_of_left_ne_nil (digitChars_ne_nil _) _)
      fun c => isDigit_of_mem_append_zeros _
  | negSucc places =>
    obtain ⟨zeros, whole, part, heq, -, hne, hlength, hdigits⟩ :=
      exists_insertPoint (fun c => isDigit_of_mem_digitChars ⟨digits, .negSucc places⟩) places
    have hplain : plain ⟨digits, .negSucc places⟩ = whole ++ '.' :: part := heq
    rw [hplain]
    exact .fraction hne (fun c hc => hdigits c (List.mem_append_left _ hc))
      (List.ne_nil_of_length_eq_add_one hlength) fun c hc => hdigits c (List.mem_append_right _ hc)

/-! ### Reading numerals -/

theorem ofChars_of_digits {text : List Char} (h : ∀ c ∈ text, c.isDigit) :
    ofChars text = ⟨Nat.ofDigitChars 10 text 0, 0⟩ := by
  have htake : text.takeWhile Char.isDigit = text := List.takeWhile_eq_self_iff.mpr h
  have hdrop : text.dropWhile Char.isDigit = [] := List.dropWhile_eq_nil_iff.mpr h
  rw [ofChars, htake, hdrop]
  simp

theorem ofChars_of_fraction {whole part : List Char} (h : ∀ c ∈ whole ++ part, c.isDigit) :
    ofChars (whole ++ '.' :: part) = ⟨Nat.ofDigitChars 10 (whole ++ part) 0, -part.length⟩ := by
  have hwhole : ∀ c ∈ whole, c.isDigit := fun c hc => h c (List.mem_append_left _ hc)
  have htake : (whole ++ '.' :: part).takeWhile Char.isDigit = whole := by
    rw [List.takeWhile_append_of_pos hwhole, List.takeWhile_cons_of_neg (by decide), List.append_nil]
  have hdrop : (whole ++ '.' :: part).dropWhile Char.isDigit = '.' :: part := by
    rw [List.dropWhile_append_of_pos hwhole, List.dropWhile_cons_of_neg (by decide)]
  have hdigits : part.takeWhile Char.isDigit = part :=
    List.takeWhile_eq_self_iff.mpr fun c hc => h c (List.mem_append_right _ hc)
  rw [ofChars, htake, hdrop]
  rfl

/-- Zeros in front of digits count for nothing. -/
theorem ofDigitChars_zeros (zeros n : Nat) :
    Nat.ofDigitChars 10 (List.replicate zeros '0' ++ Nat.toDigits 10 n) 0 = n := by
  rw [Nat.ofDigitChars_append, Nat.ofDigitChars_replicate_zero, Nat.mul_zero,
    Nat.ofDigitChars_ten_toDigits]

theorem ofChars_plain_ofNat (digits zeros : Nat) :
    ofChars (plain ⟨digits, .ofNat zeros⟩) = ⟨digits * 10 ^ zeros, 0⟩ := by
  rw [plain, ofChars_of_digits fun c => isDigit_of_mem_append_zeros _, Nat.ofDigitChars_append,
    Nat.ofDigitChars_replicate_zero, digitChars, Nat.ofDigitChars_ten_toDigits, Nat.mul_comm]

theorem ofChars_plain_negSucc (digits places : Nat) :
    ofChars (plain ⟨digits, .negSucc places⟩) = ⟨digits, .negSucc places⟩ := by
  obtain ⟨zeros, whole, part, heq, hsplit, -, hlength, hdigits⟩ :=
    exists_insertPoint (fun c => isDigit_of_mem_digitChars ⟨digits, .negSucc places⟩) places
  have hplain : plain ⟨digits, .negSucc places⟩ = whole ++ '.' :: part := heq
  rw [hplain, ofChars_of_fraction hdigits, hsplit, digitChars, ofDigitChars_zeros, hlength]
  rfl

/-- **What is read back** from plain notation is as near to a number as the decimal. -/
theorem ofDecimal_ofChars_plain :
    Binary64.ofDecimal (ofChars d.plain) = Binary64.ofDecimal d := by
  obtain ⟨digits, exponent⟩ := d
  cases exponent with
  | ofNat zeros =>
    rw [ofChars_plain_ofNat]
    exact congrArg (Binary64.nearest · 1) (Nat.mul_one _)
  | negSucc places => rw [ofChars_plain_negSucc]

end Decimal

/-! ### The characters of numerals -/

namespace TokenKind

variable {text : List Char}

/-- A numeral is made of digits, or of digits on both sides of a point. -/
theorem hasText_number_iff : number.HasText text ↔
    (text ≠ [] ∧ ∀ c ∈ text, c.isDigit) ∨ ∃ whole part, text = whole ++ '.' :: part ∧
      whole ≠ [] ∧ (∀ c ∈ whole, c.isDigit) ∧ part ≠ [] ∧ ∀ c ∈ part, c.isDigit := by
  have hsymbols : number ∉ symbols.map Prod.snd := by decide
  have hkeywords : number ∉ keywords.map Prod.snd := by decide
  constructor
  · intro h
    cases h with
    | symbol mem => exact absurd (List.mem_map_of_mem mem) hsymbols
    | keyword mem => exact absurd (List.mem_map_of_mem mem) hkeywords
    | whole ne_nil all => exact .inl ⟨ne_nil, all⟩
    | fraction whole_ne_nil whole_all part_ne_nil part_all =>
      exact .inr ⟨_, _, rfl, whole_ne_nil, whole_all, part_ne_nil, part_all⟩
  · rintro (⟨hne, hall⟩ | ⟨whole, part, rfl, hwhole, hwholeAll, hpart, hpartAll⟩)
    · exact .whole hne hall
    · exact .fraction hwhole hwholeAll hpart hpartAll

/-- A numeral begins with a digit. -/
theorem HasText.exists_digit (h : number.HasText text) : ∃ c rest, text = c :: rest ∧ c.isDigit := by
  rcases hasText_number_iff.mp h with ⟨hne, hall⟩ | ⟨whole, part, rfl, hne, hall, -⟩
  · obtain ⟨c, rest, rfl⟩ := List.exists_cons_of_ne_nil hne
    exact ⟨c, rest, rfl, hall c List.mem_cons_self⟩
  · obtain ⟨c, rest, rfl⟩ := List.exists_cons_of_ne_nil hne
    exact ⟨c, rest ++ '.' :: part, rfl, hall c List.mem_cons_self⟩

/-- The characters of a numeral are digits and a point. -/
theorem HasText.mem_number (h : number.HasText text) {c : Char} (hc : c ∈ text) :
    c.isDigit ∨ c = '.' := by
  rcases hasText_number_iff.mp h with ⟨-, hall⟩ | ⟨whole, part, rfl, -, hwhole, -, hpart⟩
  · exact .inl (hall c hc)
  · rcases List.mem_append.mp hc with hbefore | hrest
    · exact .inl (hwhole c hbefore)
    · exact (List.mem_cons.mp hrest).symm.imp_left (hpart c)

end TokenKind

end Lox
