import Lox.Bytecode.Instruction
import Lox.Compilation.Expression
import Lox.Semantics.Datum
import Lox.Syntax.Tree

/-!
# The code of a tree

What the compiler writes for a source, as a function of the tree that the source spells: the
constants in the order in which they are needed, and the instructions.

Both depend on the scopes a piece of the tree stands in, since a name stands for a local if one with
that name is alive and for a global if not. The code depends on the constants before it as well,
since it names constants by their place in the pool.

## Main definitions

* `Scopes`: the names of the locals in the open scopes.
* `Pool`: constants without regard to where strings are stored, with `Pool.add`.
* `Expr.constants`, `Stmt.constants`, `Decl.constants`: what a tree puts into the pool.
* `Expr.code`, `Stmt.code`, `Decl.code`: the instructions of a tree.
-/

namespace Lox

/-! ### Scopes -/

/-- The names of the locals in each open scope, the innermost scope and the latest local first. With
no scope open, variables are global. -/
abbrev Scopes := List (List String)

namespace Scopes

/-- The names of all locals, the latest first. -/
def names (scopes : Scopes) : List String := scopes.flatten

/-- The scopes with one more local in the innermost, if one is open. -/
def declare (name : String) : Scopes → Scopes
  | [] => []
  | scope :: outer => (name :: scope) :: outer

/-- The number of locals in the innermost scope. -/
def innermostSize (scopes : Scopes) : Nat := (scopes.headD []).length

end Scopes

/-- The slot of a local, given the names of all locals, the latest first. -/
def slot? (name : String) : List String → Option Nat
  | [] => none
  | other :: outer => if other = name then some outer.length else slot? name outer

/-! ### Pools -/

/-- Constants in the order of their indices, strings as their texts. -/
abbrev Pool := List Datum

namespace Pool

/-- The pool with a constant. A text is there once only. -/
def add (pool : Pool) : Datum → Pool
  | .text t => if .text t ∈ pool then pool else pool ++ [.text t]
  | x => pool ++ [x]

/-- The pool with more constants. -/
def addAll (pool : Pool) (constants : List Datum) : Pool := constants.foldl add pool

/-- The index at which a text is, or will be when it is added. -/
def indexOf (pool : Pool) (text : String) : Nat := pool.idxOf (.text text)

end Pool

/-! ### Constants -/

/-- The constant that the use of a name needs: its text, unless it is the name of a local. -/
def nameConstants (scopes : Scopes) (name : String) : List Datum :=
  if name ∈ scopes.names then [] else [.text name]

/-- The constants of an expression. The name of an assigned global comes before its value. -/
def Expr.constants (scopes : Scopes) : Expr → List Datum
  | .literal _ => []
  | .number x => [.number x]
  | .string t => [.text t]
  | .variable name => nameConstants scopes name
  | .assign name value => nameConstants scopes name ++ value.constants scopes
  | .group inner => inner.constants scopes
  | .unary _ operand => operand.constants scopes
  | .binary _ left right => left.constants scopes ++ right.constants scopes
  | .and left right => left.constants scopes ++ right.constants scopes
  | .or left right => left.constants scopes ++ right.constants scopes

/-- The constants of an expression that may be missing. -/
def Expr.constantsOption (scopes : Scopes) : Option Expr → List Datum
  | some e => e.constants scopes
  | none => []

/-- The constants of the declaration of a variable. A local needs none for its name. -/
def Decl.varConstants (scopes : Scopes) (name : String) (value : Option Expr) : List Datum :=
  (if scopes = [] then [.text name] else []) ++ Expr.constantsOption scopes value

/-- The scopes after the first clause of a for statement. -/
def ForInit.scopesAfter (scopes : Scopes) : ForInit → Scopes
  | .var name _ => scopes.declare name
  | .none | .expression _ => scopes

/-- The constants of the first clause of a for statement. -/
def ForInit.constants (scopes : Scopes) : ForInit → List Datum
  | .none => []
  | .var name value => Decl.varConstants scopes name value
  | .expression e => e.constants scopes

/-- The scopes after a declaration. -/
def Decl.scopesAfter (scopes : Scopes) : Decl → Scopes
  | .var name _ => scopes.declare name
  | .statement _ => scopes

/-- The scopes after declarations. -/
def Decl.scopesAfterAll (scopes : Scopes) (ds : List Decl) : Scopes :=
  ds.foldl Decl.scopesAfter scopes

mutual

/-- The constants of a statement. -/
def Stmt.constants (scopes : Scopes) : Stmt → List Datum
  | .expression e => e.constants scopes
  | .print e => e.constants scopes
  | .block ds => Decl.constantsAll ([] :: scopes) ds
  | .ifThen e s => e.constants scopes ++ s.constants scopes
  | .ifElse e s s' => e.constants scopes ++ s.constants scopes ++ s'.constants scopes
  | .whileLoop e s => e.constants scopes ++ s.constants scopes
  | .forLoop first condition increment s =>
    let inner := first.scopesAfter ([] :: scopes)
    first.constants ([] :: scopes) ++ Expr.constantsOption inner condition ++
      Expr.constantsOption inner increment ++ s.constants inner

/-- The constants of a declaration. -/
def Decl.constants (scopes : Scopes) : Decl → List Datum
  | .var name value => Decl.varConstants scopes name value
  | .statement s => s.constants scopes

/-- The constants of declarations. -/
def Decl.constantsAll (scopes : Scopes) : List Decl → List Datum
  | [] => []
  | d :: ds => d.constants scopes ++ Decl.constantsAll (d.scopesAfter scopes) ds

end

/-! ### Instructions -/

/-- The instruction that uses a name: `get` or `set` for a local, or `getGlobal` or `setGlobal`. -/
def nameInstruction (scopes : Scopes) (pool : Pool) (name : String) (ofLocal ofGlobal : OpCode) :
    Instruction :=
  match slot? name scopes.names with
  | some slot => ⟨ofLocal, slot⟩
  | none => ⟨ofGlobal, pool.indexOf name⟩

/-- The code of an expression, which leaves its value on the stack. -/
def Expr.code (scopes : Scopes) : Expr → Pool → List Instruction
  | .literal v, _ => [⟨v.opCode, 0⟩]
  | .number _, pool => [⟨.constant, pool.length⟩]
  | .string t, pool => [⟨.constant, pool.indexOf t⟩]
  | .variable name, pool => [nameInstruction scopes pool name .getLocal .getGlobal]
  | .assign name value, pool =>
    value.code scopes (pool.addAll (nameConstants scopes name)) ++
      [nameInstruction scopes pool name .setLocal .setGlobal]
  | .group inner, pool => inner.code scopes pool
  | .unary op operand, pool => operand.code scopes pool ++ [⟨op.opCode, 0⟩]
  | .binary op left right, pool =>
    left.code scopes pool ++ right.code scopes (pool.addAll (left.constants scopes)) ++
      op.opCodes.map (⟨·, 0⟩)
  | .and left right, pool =>
    left.code scopes pool ++ ifTruthy (right.code scopes (pool.addAll (left.constants scopes)))
  | .or left right, pool =>
    left.code scopes pool ++ ifFalsey (right.code scopes (pool.addAll (left.constants scopes)))

/-- The code of the initial value of a variable, nil if there is none. -/
def Expr.initialCode (scopes : Scopes) (pool : Pool) : Option Expr → List Instruction
  | some e => e.code scopes pool
  | none => [⟨.nil, 0⟩]

/-- The code of the declaration of a variable. The value of a local stays on the stack. -/
def Decl.varCode (scopes : Scopes) (pool : Pool) (name : String) (value : Option Expr) :
    List Instruction :=
  if scopes = [] then
    Expr.initialCode scopes (pool.add (.text name)) value ++ [⟨.defineGlobal, pool.indexOf name⟩]
  else Expr.initialCode scopes pool value

/-- The code of the first clause of a for statement. -/
def ForInit.code (scopes : Scopes) (pool : Pool) : ForInit → List Instruction
  | .none => []
  | .var name value => Decl.varCode scopes pool name value
  | .expression e => e.code scopes pool ++ [⟨.pop, 0⟩]

/-- The instructions that drop the locals of the innermost scope. -/
def dropLocals (scopes : Scopes) : List Instruction :=
  List.replicate scopes.innermostSize ⟨.pop, 0⟩

mutual

/-- The code of a statement. -/
def Stmt.code (scopes : Scopes) : Stmt → Pool → List Instruction
  | .expression e, pool => e.code scopes pool ++ [⟨.pop, 0⟩]
  | .print e, pool => e.code scopes pool ++ [⟨.print, 0⟩]
  | .block ds, pool =>
    Decl.codeAll ([] :: scopes) ds pool ++ dropLocals (Decl.scopesAfterAll ([] :: scopes) ds)
  | .ifThen e s, pool =>
    e.code scopes pool ++ choice (s.code scopes (pool.addAll (e.constants scopes))) []
  | .ifElse e s s', pool =>
    let pool₁ := pool.addAll (e.constants scopes)
    e.code scopes pool ++
      choice (s.code scopes pool₁) (s'.code scopes (pool₁.addAll (s.constants scopes)))
  | .whileLoop e s, pool =>
    repeating (some (e.code scopes pool)) none (s.code scopes (pool.addAll (e.constants scopes)))
  | .forLoop first condition increment s, pool =>
    let inner := first.scopesAfter ([] :: scopes)
    let pool₁ := pool.addAll (first.constants ([] :: scopes))
    let pool₂ := pool₁.addAll (Expr.constantsOption inner condition)
    let pool₃ := pool₂.addAll (Expr.constantsOption inner increment)
    first.code ([] :: scopes) pool ++
      repeating (condition.map (·.code inner pool₁)) (increment.map (·.code inner pool₂))
        (s.code inner pool₃) ++
      dropLocals inner

/-- The code of a declaration. -/
def Decl.code (scopes : Scopes) : Decl → Pool → List Instruction
  | .var name value, pool => Decl.varCode scopes pool name value
  | .statement s, pool => s.code scopes pool

/-- The code of declarations. -/
def Decl.codeAll (scopes : Scopes) : List Decl → Pool → List Instruction
  | [], _ => []
  | d :: ds, pool =>
    d.code scopes pool ++
      Decl.codeAll (d.scopesAfter scopes) ds (pool.addAll (d.constants scopes))

end

/-! ### Programs -/

/-- The code of a program. -/
def Decl.programCode (program : List Decl) : List Instruction :=
  Decl.codeAll [] program [] ++ [⟨.halt, 0⟩]

/-- The constants of a program. -/
def Decl.programPool (program : List Decl) : Pool := Pool.addAll [] (Decl.constantsAll [] program)

end Lox
