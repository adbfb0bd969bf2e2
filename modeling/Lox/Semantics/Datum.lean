import Lox.Value

/-!
# Data

A datum is a value as a program sees it. Unlike a `Value` it holds a string by its text, so that
nothing about it depends on an interner.

## Main definitions

* `Datum`: nil, booleans, numbers and texts.
* `Datum.isFalsey`, `Datum.equals`, `Datum.display`.
* `Value.datum`: the datum of a value.
-/

namespace Lox

/-- A value as a program sees it. -/
inductive Datum where
  | nil
  | bool (value : Bool)
  | number (value : Float)
  | text (value : String)
  deriving DecidableEq, Repr, Inhabited

namespace Datum

/-- Nil and false are falsey, and nothing else is. -/
def isFalsey : Datum → Bool
  | nil => true
  | bool b => !b
  | _ => false

/-- Equality as a program sees it: of binary64 on numbers, and of characters on texts. -/
def equals : Datum → Datum → Bool
  | nil, nil => true
  | bool a, bool b => a == b
  | number a, number b => a == b
  | text a, text b => a == b
  | _, _ => false

/-- What printing shows. -/
def display : Datum → String
  | nil => "nil"
  | bool b => if b then "true" else "false"
  | number x => Number.write .display x
  | text t => t

/-- The text, if the datum is one. -/
def text? : Datum → Option String
  | text t => some t
  | _ => none

end Datum

/-- The datum of a value. -/
def Value.datum (interner : Interner) : Value → Datum
  | nil => .nil
  | bool b => .bool b
  | number x => .number x
  | string symbol => .text (interner.text symbol)

end Lox
