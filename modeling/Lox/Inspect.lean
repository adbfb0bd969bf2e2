import Lox.World

/-!
# Dumps

The texts that show the insides of symbols, values, tables and worlds. Unlike what programs print,
they name the kind of each value and show a symbol by its number, counted from 1, and its hash.

## Main definitions

* `Symbol.inspect`, `Value.inspect`, `SymbolTable.inspect`, `World.inspect`.
-/

namespace Lox

/-- The hexadecimal digits of a hash, always eight. -/
def hexHash (hash : UInt32) : String :=
  let digits := Nat.toDigits 16 hash.toNat
  String.ofList (List.replicate (8 - digits.length) '0' ++ digits)

/-- A symbol with its number and its hash. -/
def Symbol.inspect (s : Symbol) : String :=
  "Symbol(Spur(" ++ toString (s.index + 1) ++ "), 0x" ++ hexHash s.hash ++ ")"

/-- A value with its kind. -/
def Value.inspect : Value → String
  | nil => "Nil"
  | bool b => if b then "Bool(true)" else "Bool(false)"
  | number x => "Number(" ++ Number.write .inspect x ++ ")"
  | string s => "String(" ++ s.inspect ++ ")"

/-- The entries of a table in the order of their slots, in braces. -/
def SymbolTable.inspect (t : SymbolTable Value) : String :=
  let entry (e : Symbol × Value) : String := e.1.inspect ++ ": " ++ e.2.inspect
  "\x7b" ++ ", ".intercalate (t.entries.map entry) ++ "\x7d"

/-- The number of texts and of globals of a world. -/
def World.inspect (w : World) : String :=
  "World \x7b interned: " ++ toString w.interner.size ++ ", globals: " ++
    toString w.globals.size ++ " \x7d"

end Lox
