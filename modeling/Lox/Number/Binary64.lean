import Lox.Number.Decimal

/-!
# Binary64 numbers, exactly

The non-negative finite numbers of the format are whole multiples of `2 ^ -1074`, and in the order
of their bit patterns they are increasing. So a pattern is treated as a natural number and its
value as the natural number `magnitude`, counted in units of `2 ^ -1074`; rounding and printing
are then questions about natural numbers.

The pattern of infinity is one above that of the largest finite number, and its magnitude is
`2 ^ 1024` in the same units. Rounding to nearest needs no case for overflow: what is nearer to
`2 ^ 1024` than to the largest finite number is infinite.

## Main definitions

* `Binary64.magnitude`: the value of a pattern in units of `2 ^ -1074`.
* `Binary64.nearest`: the pattern nearest to a fraction, an even pattern on a tie.
* `Binary64.ofDecimal`: the pattern nearest to a decimal.
* `Binary64.shortest`: the decimal with the fewest digits that reads back as a pattern.
-/

namespace Lox

namespace Binary64

/-- The exponent of the unit that magnitudes are counted in, without its sign. -/
def unitExponent : Nat := 1074

/-- The pattern of infinity. -/
def infinity : Nat := 0x7FF * Nat.pow 2 52

/-- The value of a pattern in units of `2 ^ -1074`. Patterns below `2 ^ 53` are their own value;
from there on each block of `2 ^ 52` patterns has twice the spacing of the block before it. -/
def magnitude (pattern : Nat) : Nat :=
  let block := pattern / Nat.pow 2 52 - 1
  (pattern - block * Nat.pow 2 52) * Nat.pow 2 block

/-- The largest pattern whose magnitude is at most `value`. -/
def floorPattern (value : Nat) : Nat :=
  let block := value.log2 - 52
  value / Nat.pow 2 block + block * Nat.pow 2 52

/-- The pattern nearest to `num / den`. On a tie the even one of the two, and infinity from half a
step above the largest finite number on. -/
def nearest (num den : Nat) : Nat :=
  let scaled := num * Nat.pow 2 unitExponent
  let low := floorPattern (scaled / den)
  if infinity ≤ low then infinity
  else
    match compare (2 * scaled) ((magnitude low + magnitude (low + 1)) * den) with
    | .lt => low
    | .gt => low + 1
    | .eq => if low % 2 = 0 then low else low + 1

/-- The pattern nearest to a decimal. -/
def ofDecimal (d : Decimal) : Nat :=
  match d.exponent with
  | .ofNat e => nearest (d.digits * Nat.pow 10 e) 1
  | .negSucc e => nearest d.digits (Nat.pow 10 (e + 1))

/-! ### Shortest decimals

A finite number has an exact decimal with 1074 places. Cutting its digits after the first, the
second, and so on gives two neighbours with that many digits; the first length at which a neighbour
reads back as the pattern is the shortest there is. -/

/-- The exact decimal value of a finite pattern. -/
def exactDecimal (pattern : Nat) : Decimal :=
  ⟨magnitude pattern * Nat.pow 5 unitExponent, -unitExponent⟩

/-- The number of decimal digits of a positive number: the estimate `log2 * log10 2` from below,
corrected. -/
def digitCount (n : Nat) : Nat :=
  let estimate := n.log2 * 1233 / 4096
  if n < Nat.pow 10 estimate then estimate
  else if n < Nat.pow 10 (estimate + 1) then estimate + 1
  else estimate + 2

/-- The neighbours of `exact` when its last `cut` digits are dropped, of which those that read back
as `pattern` are kept; the nearer one of two, and the upper one on a tie. -/
def readBackNeighbour? (pattern : Nat) (exact : Decimal) (cut : Nat) : Option Decimal :=
  let lower : Decimal := ⟨exact.digits / Nat.pow 10 cut, exact.exponent + cut⟩
  let upper : Decimal := ⟨lower.digits + 1, lower.exponent⟩
  match ofDecimal lower == pattern, ofDecimal upper == pattern with
  | false, false => none
  | true, false => some lower
  | false, true => some upper
  | true, true => some (if 2 * (exact.digits % Nat.pow 10 cut) < Nat.pow 10 cut then lower else upper)

/-- The decimal with the fewest digits that reads back as a finite pattern, without trailing
zeros. Seventeen digits are enough for every pattern. -/
def shortest (pattern : Nat) : Decimal :=
  let exact := exactDecimal pattern
  let size := digitCount exact.digits
  let found := (List.range 17).findSome? fun n =>
    readBackNeighbour? pattern exact (size - (n + 1))
  (found.getD exact).trim

end Binary64

end Lox
