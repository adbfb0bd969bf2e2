import Lox.Number.Style
import Lox.Symbol

/-!
# Values

The values of the language are nil, booleans, binary64 numbers and interned strings.

Equality of values as programs see it, `Value.equals`, is that of binary64 on numbers: zero equals
minus zero, and what is not a number equals nothing. Strings are equal when their symbols are.

## Main definitions

* `Value`: a value, with `Value.number?` and `Value.symbol?`.
* `Value.isFalsey`, `Value.equals`: the two tests programs make.
* `Value.display`: what printing a value shows.
-/

namespace Lox

/-- A value of the language. -/
inductive Value where
  | nil
  | bool (value : Bool)
  | number (value : Float)
  | string (symbol : Symbol)
  deriving DecidableEq, Repr, Inhabited

namespace Value

/-- The number, if the value is one. -/
def number? : Value → Option Float
  | number x => some x
  | _ => none

/-- The symbol, if the value is a string. -/
def symbol? : Value → Option Symbol
  | string s => some s
  | _ => none

/-- Nil and false are falsey, and no other value is. -/
def isFalsey : Value → Bool
  | nil => true
  | bool b => !b
  | _ => false

/-- Whether a program sees two values as equal. -/
def equals : Value → Value → Bool
  | nil, nil => true
  | bool a, bool b => a == b
  | number a, number b => a == b
  | string a, string b => a == b
  | _, _ => false

/-- What printing a value shows. Strings are shown without quotes. -/
def display (interner : Interner) : Value → String
  | nil => "nil"
  | bool b => if b then "true" else "false"
  | number x => Number.write .display x
  | string s => interner.text s

end Value

end Lox
