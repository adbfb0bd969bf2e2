import Lox.Compilation.Requirements
import Lox.Token.Respelling

/-!
# Renaming

A renaming gives every identifier another one, and different ones to different identifiers. It
changes a source token by token, and a tree name by name.

## Main definitions

* `Identifier`, `Renaming`: maps between identifiers.
* `Renaming.source`: the source with its identifiers renamed.
* `Expr.rename`, `Stmt.rename`, `Decl.rename`: the tree with its names changed.
* `Expr.globals`, `Stmt.globals`, `Decl.globals`: the names that declare or stand for globals.
-/

namespace Lox

/-! ### Renamings -/

/-- Whether a text is a word that is not reserved. -/
def isIdentifier (name : String) : Bool :=
  match name.toList with
  | [] => false
  | c :: rest => isWordStart c && rest.all isWordPart && TokenKind.ofWord name == .identifier

/-- A word that is not reserved. -/
abbrev Identifier := { name : String // isIdentifier name = true }

/-- A map from identifiers to identifiers that keeps different ones apart. -/
structure Renaming where
  image : Identifier → Identifier
  injective : Function.Injective image

namespace Renaming

/-- The new name for a name. What is no identifier has none. -/
def name (ρ : Renaming) (name : String) : String :=
  if h : isIdentifier name then (ρ.image ⟨name, h⟩).val else name

/-- The new text of a token, which is another one for identifiers only. -/
def lexeme (ρ : Renaming) (t : Token) : String :=
  if t.kind = .identifier then ρ.name t.lexeme else t.lexeme

/-- The source with each identifier replaced by the new one. -/
def source (ρ : Renaming) (source : String) : String := respell ρ.lexeme source

end Renaming

/-! ### Trees with other names -/

section Trees

variable (f : String → String)

/-- The expression with its names changed. -/
def Expr.rename : Expr → Expr
  | .literal v => .literal v
  | .number x => .number x
  | .string t => .string t
  | .variable name => .variable (f name)
  | .assign name value => .assign (f name) value.rename
  | .group inner => .group inner.rename
  | .unary op operand => .unary op operand.rename
  | .binary op left right => .binary op left.rename right.rename
  | .and left right => .and left.rename right.rename
  | .or left right => .or left.rename right.rename

/-- The first clause of a for statement with its names changed. -/
def ForInit.rename : ForInit → ForInit
  | .none => .none
  | .var name value => .var (f name) (value.map (·.rename f))
  | .expression e => .expression (e.rename f)

mutual

/-- The statement with its names changed. -/
def Stmt.rename : Stmt → Stmt
  | .expression e => .expression (e.rename f)
  | .print e => .print (e.rename f)
  | .block ds => .block (Decl.renameAll ds)
  | .ifThen e s => .ifThen (e.rename f) s.rename
  | .ifElse e s s' => .ifElse (e.rename f) s.rename s'.rename
  | .whileLoop e s => .whileLoop (e.rename f) s.rename
  | .forLoop first condition increment s =>
    .forLoop (first.rename f) (condition.map (·.rename f)) (increment.map (·.rename f)) s.rename

/-- The declaration with its names changed. -/
def Decl.rename : Decl → Decl
  | .var name value => .var (f name) (value.map (·.rename f))
  | .statement s => .statement s.rename

/-- The declarations with their names changed. -/
def Decl.renameAll : List Decl → List Decl
  | [] => []
  | d :: ds => d.rename :: Decl.renameAll ds

end

end Trees

/-! ### Names of globals -/

/-- Those of the names in an expression that stand for globals, if there is an expression. -/
def Expr.globals (scopes : Scopes) (e : Option Expr) : List String :=
  (Expr.namesOption e).filter (· ∉ scopes.names)

/-- The names in the declaration of a variable that declare a global or stand for one. -/
def Decl.varGlobals (scopes : Scopes) (name : String) (value : Option Expr) : List String :=
  (if scopes = [] then [name] else []) ++ Expr.globals scopes value

/-- The names in the first clause of a for statement that stand for globals. -/
def ForInit.globals (scopes : Scopes) : ForInit → List String
  | .none => []
  | .var name value => Decl.varGlobals scopes name value
  | .expression e => Expr.globals scopes e

mutual

/-- The names in a statement that stand for globals. -/
def Stmt.globals (scopes : Scopes) : Stmt → List String
  | .expression e | .print e => Expr.globals scopes e
  | .block ds => Decl.globalsAll ([] :: scopes) ds
  | .ifThen e s | .whileLoop e s => Expr.globals scopes e ++ s.globals scopes
  | .ifElse e s s' => Expr.globals scopes e ++ s.globals scopes ++ s'.globals scopes
  | .forLoop first condition increment s =>
    let inner := first.scopesAfter ([] :: scopes)
    first.globals ([] :: scopes) ++ Expr.globals inner condition ++
      Expr.globals inner increment ++ s.globals inner

/-- The names in a declaration that declare a global or stand for one. -/
def Decl.globals (scopes : Scopes) : Decl → List String
  | .var name value => Decl.varGlobals scopes name value
  | .statement s => s.globals scopes

/-- The names in declarations that declare a global or stand for one. -/
def Decl.globalsAll (scopes : Scopes) : List Decl → List String
  | [] => []
  | d :: ds => d.globals scopes ++ Decl.globalsAll (d.scopesAfter scopes) ds

end

/-- The names that declare a global or stand for one somewhere in a program. -/
def Decl.programGlobals (program : List Decl) : List String := Decl.globalsAll [] program

end Lox
