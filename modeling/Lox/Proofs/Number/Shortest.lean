import Lox.Proofs.Number.Binary64

/-!
# Shortest decimals read back

The decimal that a finite pattern is written as is one that reads back as it: a neighbour is taken
only if it does, and where none does, the exact decimal is taken. Zeros at the end of its digits make
no difference to what it reads back as.

## Main results

* `Binary64.ofDecimal_trim`: zeros at the end of the digits.
* `Binary64.ofDecimal_exactDecimal`: the exact decimal.
* `Binary64.ofDecimal_shortest`: the decimal that is written.
-/

namespace Lox

namespace Binary64

/-! ### Zeros at the end -/

theorem ofDecimal_neg (digits places : Nat) :
    ofDecimal ⟨digits, -(places : Int)⟩ = nearest digits (10 ^ places) := by
  cases places with
  | zero => exact congrArg (nearest · 1) (Nat.mul_one digits)
  | succ places => rfl

/-- A zero at the end of the digits. -/
theorem ofDecimal_shift (digits : Nat) (e : Int) :
    ofDecimal ⟨digits, e + 1⟩ = ofDecimal ⟨10 * digits, e⟩ := by
  cases e with
  | ofNat e =>
    have hnum : digits * 10 ^ (e + 1) = 10 * digits * 10 ^ e := by
      rw [Nat.pow_succ, Nat.mul_comm (10 ^ e), ← Nat.mul_assoc, Nat.mul_comm digits]
    exact congrArg (nearest · 1) hnum
  | negSucc places =>
    have hden : 10 ^ (places + 1) = 10 * 10 ^ places := Nat.pow_succ'
    have hnext : Int.negSucc places + 1 = -(places : Int) := by omega
    show ofDecimal _ = nearest (10 * digits) (10 ^ (places + 1))
    rw [hden, nearest_mul (by decide), hnext, ofDecimal_neg]

theorem ofDecimal_zero (e : Int) : ofDecimal ⟨0, e⟩ = 0 := by
  have hzero : ∀ den, 0 < den → nearest 0 den = 0 := fun den hden =>
    nearest_magnitude (by decide) hden
      (by rw [Nat.zero_mul, show magnitude 0 = 0 from rfl, Nat.zero_mul])
  cases e with
  | ofNat e =>
    show nearest (0 * 10 ^ e) 1 = 0
    rw [Nat.zero_mul, hzero 1 Nat.one_pos]
  | negSucc places =>
    show nearest 0 (10 ^ (places + 1)) = 0
    exact hzero (10 ^ (places + 1)) (Nat.pow_pos (by decide))

/-- **Zeros at the end of the digits** make no difference. -/
theorem ofDecimal_trim (d : Decimal) : ofDecimal d.trim = ofDecimal d := by
  induction d using Decimal.trim.induct with
  | case1 d hzero =>
    obtain ⟨digits, e⟩ := d
    obtain rfl : digits = 0 := hzero
    rw [Decimal.trim, if_pos rfl, ofDecimal_zero, ofDecimal_zero]
  | case2 d hzero hten ih =>
    have hdigits : 10 * (d.digits / 10) = d.digits :=
      Nat.mul_div_cancel' (Nat.dvd_of_mod_eq_zero hten)
    rw [Decimal.trim, if_neg hzero, if_pos hten, ih, ofDecimal_shift, hdigits]
  | case3 d hzero hten => rw [Decimal.trim, if_neg hzero, if_neg hten]

/-! ### The decimal that is written -/

variable {pattern : Nat}

/-- **The exact decimal reads back.** -/
theorem ofDecimal_exactDecimal (h : pattern < infinity) :
    ofDecimal (exactDecimal pattern) = pattern := by
  rw [exactDecimal, ofDecimal_neg]
  refine nearest_magnitude h (Nat.pow_pos (by decide)) ?_
  rw [Nat.pow_eq, Nat.mul_assoc, ← Nat.mul_pow]

/-- A neighbour is taken only if it reads back. -/
theorem ofDecimal_of_readBackNeighbour? {exact d : Decimal} {cut : Nat}
    (h : readBackNeighbour? pattern exact cut = some d) : ofDecimal d = pattern := by
  simp only [readBackNeighbour?] at h
  split at h
  · exact absurd h nofun
  · next hlower _ => exact Option.some.inj h ▸ eq_of_beq hlower
  · next _ hupper => exact Option.some.inj h ▸ eq_of_beq hupper
  · next hlower hupper =>
    rw [← Option.some.inj h]
    split
    · exact eq_of_beq hlower
    · exact eq_of_beq hupper

/-- **What is written for a finite number reads back as it.** -/
theorem ofDecimal_shortest (h : pattern < infinity) : ofDecimal (shortest pattern) = pattern := by
  simp only [shortest]
  rw [ofDecimal_trim]
  cases hfound : (List.range 17).findSome? _ with
  | none => exact ofDecimal_exactDecimal h
  | some d =>
    obtain ⟨n, -, hneighbour⟩ := List.exists_of_findSome?_eq_some hfound
    exact ofDecimal_of_readBackNeighbour? hneighbour

end Binary64

end Lox
