import Lox.Number.Binary64

/-!
# Writing numbers

A whole number may be written as the integer that it is; any other number is written with the fewest
digits that read back as it. Which whole numbers that are, how digits are laid out, and what stands
for a number that has no digits, is the business of a `NumberStyle`.

## Main definitions

* `Number.parse`: the number nearest to a numeral.
* `NumberStyle`: the decisions of a layout, with the two that are in use, `NumberStyle.display` for
  what programs print and `NumberStyle.inspect` for dumps of values.
* `Number.write`: the text of a number in a style.
-/

namespace Lox

namespace Number

/-- The bit pattern of a number without its sign. -/
def pattern (x : Float) : Nat := x.toBits.toNat % Nat.pow 2 63

/-- Whether the sign bit of a number is set. -/
def isNegative (x : Float) : Bool := Nat.pow 2 63 ≤ x.toBits.toNat

/-- The non-negative number with a bit pattern. -/
def ofPattern (pattern : Nat) : Float := Float.ofBits (UInt64.ofNat pattern)

/-- The number nearest to a numeral of a source: digits with an optional fraction. -/
def parse (numeral : String) : Float :=
  ofPattern (Binary64.ofDecimal (Decimal.ofChars numeral.toList))

end Number

/-- How a number is laid out. -/
structure NumberStyle where
  /-- What is written for a value that is not a number. -/
  notANumber : String
  /-- Whole numbers below this are written as integers. -/
  integersBelow : Nat
  /-- Whether a number whose first digit has this exponent is written in plain notation. -/
  isPlain : Int → Bool
  /-- What follows a whole number in plain notation. -/
  afterWhole : String

namespace NumberStyle

/-- The style of printed values: whole numbers below `1e15` as integers, and always plain, without a
point behind a whole number. -/
def display : NumberStyle where
  notANumber := "nan"
  integersBelow := Nat.pow 10 15
  isPlain := fun _ => true
  afterWhole := ""

/-- The style of dumps: plain from `1e-4` up to below `1e16`, and whole numbers with one place. -/
def inspect : NumberStyle where
  notANumber := "NaN"
  integersBelow := 0
  isPlain := fun exponent => -4 ≤ exponent && exponent < 16
  afterWhole := ".0"

/-- The text of a decimal. -/
def decimal (style : NumberStyle) (d : Decimal) : List Char :=
  if style.isPlain d.leadingExponent then
    d.plain ++ if 0 ≤ d.exponent then style.afterWhole.toList else []
  else d.scientific

/-- The text of the non-negative number with a bit pattern. -/
def unsigned (style : NumberStyle) (pattern : Nat) : List Char :=
  let unit := Nat.pow 2 Binary64.unitExponent
  let whole := Binary64.magnitude pattern / unit
  if pattern = Binary64.infinity then ['i', 'n', 'f']
  else if Binary64.magnitude pattern % unit = 0 ∧ whole < style.integersBelow then
    Nat.toDigits 10 whole
  else style.decimal (Binary64.shortest pattern)

end NumberStyle

/-- The text of a number: its sign and the text of the number without sign. Zero keeps its sign,
and what is not a number has none. -/
def Number.write (style : NumberStyle) (x : Float) : String :=
  if Binary64.infinity < Number.pattern x then style.notANumber
  else
    let text := style.unsigned (Number.pattern x)
    String.ofList (if Number.isNegative x then '-' :: text else text)

end Lox
