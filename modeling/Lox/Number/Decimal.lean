/-!
# Decimal numerals

A decimal is a whole number of units of a power of ten. Sources hold decimals as digits with an
optional fraction; listings and printed lines hold them in plain notation, as sources do, or with
an exponent.

## Main definitions

* `Decimal`: `digits * 10 ^ exponent`.
* `Decimal.ofChars`: reads digits with an optional fraction.
* `Decimal.plain`, `Decimal.scientific`: the two notations.
-/

namespace Lox

/-- The number `digits * 10 ^ exponent`. -/
structure Decimal where
  digits : Nat
  exponent : Int
  deriving DecidableEq, Repr, Inhabited

namespace Decimal

/-- Reads digits, and after a point the digits of a fraction. -/
def ofChars (text : List Char) : Decimal :=
  let whole := text.takeWhile Char.isDigit
  let fraction := (text.dropWhile Char.isDigit).drop 1
  ⟨Nat.ofDigitChars 10 (whole ++ fraction) 0, -fraction.length⟩

/-- Moves factors of ten from the digits into the exponent, so that the last digit is not zero.
Zero gets the exponent zero. -/
def trim (d : Decimal) : Decimal :=
  if d.digits = 0 then ⟨0, 0⟩
  else if d.digits % 10 = 0 then trim ⟨d.digits / 10, d.exponent + 1⟩
  else d
termination_by d.digits
decreasing_by
  next h _ => exact Nat.div_lt_self (Nat.pos_of_ne_zero h) (by decide)

/-- The digits of a number, most significant first. -/
def digitChars (d : Decimal) : List Char := Nat.toDigits 10 d.digits

/-- The exponent of the first digit. -/
def leadingExponent (d : Decimal) : Int := d.exponent + (d.digitChars.length - 1 : Nat)

/-- Inserts a point before the last `places` digits, with zeros in front where the digits do not
reach so far. -/
def insertPoint (digits : List Char) (places : Nat) : List Char :=
  let padded := List.replicate (places + 1 - digits.length) '0' ++ digits
  let whole := padded.length - places
  padded.take whole ++ '.' :: padded.drop whole

/-- Plain notation: all digits, and a point if there is a fraction. -/
def plain (d : Decimal) : List Char :=
  match d.exponent with
  | .ofNat zeros => d.digitChars ++ List.replicate zeros '0'
  | .negSucc places => insertPoint d.digitChars (places + 1)

/-- Scientific notation: one digit before the point, and the exponent after the letter `e`. -/
def scientific (d : Decimal) : List Char :=
  let mantissa := match d.digitChars with
    | first :: second :: more => first :: '.' :: second :: more
    | digits => digits
  mantissa ++ 'e' :: (toString d.leadingExponent).toList

end Decimal

end Lox
