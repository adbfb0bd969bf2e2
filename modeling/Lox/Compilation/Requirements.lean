import Lox.Compilation
import Lox.Compilation.Translation
import Mathlib.Data.Finset.Card

/-!
# What a program must keep to

Not every program that the grammar allows can be compiled: names have to be declared properly, and
what a program needs of constants, jumps, locals and nesting has to be at hand. `Accepted` puts
these requirements together. It speaks about the tree of a program only.

## Main definitions

* `Expr.height`, `Stmt.height`, `Decl.height`: how many levels of nesting a tree needs.
* `Stmt.WellScoped`, `Decl.WellScoped`: locals are declared and used properly, and not too many of
  them are alive at once.
* `poolSize`: how many places constants take in a pool.
* `Accepted`: the requirements on a program.
-/

namespace Lox

/-! ### Nesting

What stands on level `n` fits if `n + height` is at most the limit: an expression or a block needs
one level, and its parts stand one level further in; so do the parts of an if, while or for
statement, each of which needs a level itself. The left operand of a connective stands on the level
of the whole. -/

/-- The levels that an expression needs. -/
def Expr.height : Expr → Nat
  | .literal _ | .number _ | .string _ | .variable _ => 1
  | .assign _ inner | .group inner | .unary _ inner => inner.height + 1
  | .binary _ left right | .and left right | .or left right => max left.height (right.height + 1)

/-- The levels that an expression needs that may be missing. -/
def Expr.heightOption : Option Expr → Nat
  | some e => e.height
  | none => 0

/-- The levels that the first clause of a for statement needs. -/
def ForInit.height : ForInit → Nat
  | .none => 0
  | .var _ value => Expr.heightOption value
  | .expression e => e.height

mutual

/-- The levels that a statement needs. -/
def Stmt.height : Stmt → Nat
  | .expression e | .print e => e.height
  | .block ds => Decl.heightAll ds + 1
  | .ifThen e s | .whileLoop e s => max e.height s.height + 1
  | .ifElse e s s' => max e.height (max s.height s'.height) + 1
  | .forLoop first condition increment s =>
    max (max first.height (Expr.heightOption condition))
      (max (Expr.heightOption increment) s.height) + 1

/-- The levels that a declaration needs. -/
def Decl.height : Decl → Nat
  | .var _ value => Expr.heightOption value
  | .statement s => s.height

/-- The levels that declarations on one level need. -/
def Decl.heightAll : List Decl → Nat
  | [] => 0
  | d :: ds => max d.height (Decl.heightAll ds)

end

/-! ### Scopes -/

/-- The names that an expression uses. -/
def Expr.names : Expr → List String
  | .literal _ | .number _ | .string _ => []
  | .variable name => [name]
  | .assign name value => name :: value.names
  | .group inner | .unary _ inner => inner.names
  | .binary _ left right | .and left right | .or left right => left.names ++ right.names

/-- The names that an expression uses that may be missing. -/
def Expr.namesOption : Option Expr → List String
  | some e => e.names
  | none => []

/-- A variable can be declared. A global always can. A local must be the first of its name in its
scope, its initial value must not use the name, and fewer locals than the limit may be alive. -/
def Scopes.CanDeclare (limit : Nat) (name : String) (value : Option Expr) (scopes : Scopes) :
    Prop :=
  scopes ≠ [] → name ∉ scopes.headD [] ∧ name ∉ Expr.namesOption value ∧
    scopes.names.length < limit

/-- The first clause of a for statement declares its local properly, if it declares one. -/
def ForInit.WellScoped (limit : Nat) (scopes : Scopes) : ForInit → Prop
  | .var name value => scopes.CanDeclare limit name value
  | .none | .expression _ => True

mutual

/-- The statement declares and uses locals properly. -/
def Stmt.WellScoped (limit : Nat) (scopes : Scopes) : Stmt → Prop
  | .expression _ | .print _ => True
  | .block ds => Decl.WellScopedAll limit ([] :: scopes) ds
  | .ifThen _ s | .whileLoop _ s => s.WellScoped limit scopes
  | .ifElse _ s s' => s.WellScoped limit scopes ∧ s'.WellScoped limit scopes
  | .forLoop first _ _ s => first.WellScoped limit ([] :: scopes) ∧
      s.WellScoped limit (first.scopesAfter ([] :: scopes))

/-- The declaration declares and uses locals properly. -/
def Decl.WellScoped (limit : Nat) (scopes : Scopes) : Decl → Prop
  | .var name value => scopes.CanDeclare limit name value
  | .statement s => s.WellScoped limit scopes

/-- The declarations declare and use locals properly. -/
def Decl.WellScopedAll (limit : Nat) (scopes : Scopes) : List Decl → Prop
  | [] => True
  | d :: ds => d.WellScoped limit scopes ∧ Decl.WellScopedAll limit (d.scopesAfter scopes) ds

end

/-! ### Programs -/

/-- The places that constants take: one for each number, however often it occurs, and one for each
text. -/
def poolSize (constants : List Datum) : Nat :=
  constants.countP (·.text? = none) + (constants.filterMap Datum.text?).toFinset.card

/-- The requirements on a program under limits. -/
@[mk_iff]
structure Accepted (limits : Limits) (program : List Decl) : Prop where
  /-- Locals are declared and used properly. -/
  scopes : Decl.WellScopedAll (min limits.locals LocalScope.maxSlots) [] program
  /-- The constants have places in one pool. -/
  constants : poolSize (Decl.constantsAll [] program) ≤ Draft.maxConstants
  /-- Every distance of a jump fits into its operand. -/
  jumps : JumpsFit (Decl.codeAll [] program [])
  /-- The nesting is not too deep. -/
  nesting : Decl.heightAll program ≤ limits.nesting

end Lox
