import Lox.SymbolTable
import Lox.Value

/-!
# Worlds

A world outlives the programs that run in it: it holds the interned texts and the global variables,
so that a program sees what the programs before it have defined.

## Main definitions

* `World`: an interner and a table of globals.
-/

namespace Lox

/-- The interned texts and the global variables. -/
structure World where
  interner : Interner
  globals : SymbolTable Value
  deriving DecidableEq, Repr

namespace World

/-- A world in which nothing has happened. -/
def empty : World := ⟨.empty, .empty⟩

instance : Inhabited World := ⟨empty⟩

/-- The symbol of a text, storing the text if it is new. -/
def intern (w : World) (text : String) : Symbol × World :=
  let (symbol, interner) := w.interner.intern text
  (symbol, { w with interner })

/-- Gives each global named in `other` the value it has there. -/
def importGlobals (w : World) (other : SymbolTable Value) : World :=
  { w with globals := w.globals.merge other }

end World

end Lox
