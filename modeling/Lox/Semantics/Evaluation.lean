import Lox.Semantics.Store
import Lox.Syntax.Tree

/-!
# Evaluating trees

What a program does, by recursion on its tree. Operands are evaluated from left to right. The
evaluation of a statement takes a bound on how often it may go around each loop, each time it comes
to the loop; a program that runs forever is one whose evaluation is unfinished whatever the bound.

## Main definitions

* `UnaryOp.apply`, `BinaryOp.apply`: what operators do.
* `Expr.eval`: the value of an expression.
* `Stmt.exec`, `Decl.exec`, `Decl.execAll`: what statements and declarations do.
-/

namespace Lox

/-! ### Operators -/

/-- The datum of a literal. -/
def Literal.datum : Literal → Datum
  | nil => .nil
  | bool b => .bool b

/-- What an operator of one operand does. -/
def UnaryOp.apply : UnaryOp → Datum → Except Fault Datum
  | negate, .number x => .ok (.number (-x))
  | negate, _ => .error .operandNotNumber
  | not, x => .ok (.bool x.isFalsey)

/-- An operation on numbers. -/
def onNumbers (f : Float → Float → Datum) : Datum → Datum → Except Fault Datum
  | .number x, .number y => .ok (f x y)
  | _, _ => .error .operandsNotNumbers

/-- Adds numbers and joins texts. -/
def addData : Datum → Datum → Except Fault Datum
  | .number x, .number y => .ok (.number (x + y))
  | .text x, .text y => .ok (.text (x ++ y))
  | _, _ => .error .operandsNotAddable

/-- What an operator of two operands does. Comparisons that also hold of equal numbers are the
negations of those the other way round. -/
def BinaryOp.apply : BinaryOp → Datum → Datum → Except Fault Datum
  | equal, x, y => .ok (.bool (x.equals y))
  | notEqual, x, y => .ok (.bool (!x.equals y))
  | greater, x, y => onNumbers (fun a b => .bool (a > b)) x y
  | greaterEqual, x, y => onNumbers (fun a b => .bool (!(a < b))) x y
  | less, x, y => onNumbers (fun a b => .bool (a < b)) x y
  | lessEqual, x, y => onNumbers (fun a b => .bool (!(a > b))) x y
  | add, x, y => addData x y
  | subtract, x, y => onNumbers (fun a b => .number (a - b)) x y
  | multiply, x, y => onNumbers (fun a b => .number (a * b)) x y
  | divide, x, y => onNumbers (fun a b => .number (a / b)) x y

/-! ### Expressions -/

/-- The value of an expression. -/
def Expr.eval : Expr → Evaluation Datum
  | .literal v => pure v.datum
  | .number x => pure (.number x)
  | .string t => pure (.text t)
  | .variable name => Evaluation.read name
  | .assign name value => do Evaluation.assign name (← value.eval)
  | .group inner => inner.eval
  | .unary op operand => do .ofExcept (op.apply (← operand.eval))
  | .binary op left right => do
    let x ← left.eval
    let y ← right.eval
    .ofExcept (op.apply x y)
  | .and left right => do
    let x ← left.eval
    if x.isFalsey then pure x else right.eval
  | .or left right => do
    let x ← left.eval
    if x.isFalsey then right.eval else pure x

/-- The value of an expression, and a given one if it is missing. -/
def Expr.evalD (default : Datum) : Option Expr → Evaluation Datum
  | some e => e.eval
  | none => pure default

/-! ### Statements -/

/-- Declares a variable, whose value is nil if it is not given. -/
def Decl.execVar (name : String) (value : Option Expr) : Evaluation Unit := do
  let x ← Expr.evalD .nil value
  .modify (·.declare name x)

/-- The first clause of a for statement. -/
def ForInit.exec : ForInit → Evaluation Unit
  | .none => pure ()
  | .var name value => Decl.execVar name value
  | .expression e => discard e.eval

mutual

/-- What a statement does. -/
def Stmt.exec (bound : Nat) : Stmt → Evaluation Unit
  | .expression e => discard e.eval
  | .print e => do
    let x ← e.eval
    .modify (·.print x.display)
  | .block ds => .inScope (Decl.execAll bound ds)
  | .ifThen e s => do if !(← e.eval).isFalsey then s.exec bound
  | .ifElse e s s' => do if (← e.eval).isFalsey then s'.exec bound else s.exec bound
  | .whileLoop e s => .repeatWhile e.eval (s.exec bound) bound
  | .forLoop first condition increment s => .inScope do
    first.exec
    let round : Evaluation Unit := do
      s.exec bound
      discard (Expr.evalD .nil increment)
    .repeatWhile (Expr.evalD (.bool true) condition) round bound

/-- What a declaration does. -/
def Decl.exec (bound : Nat) : Decl → Evaluation Unit
  | .var name value => Decl.execVar name value
  | .statement s => s.exec bound

/-- What declarations do, one after the other. -/
def Decl.execAll (bound : Nat) : List Decl → Evaluation Unit
  | [] => pure ()
  | d :: ds => do
    d.exec bound
    Decl.execAll bound ds

end

end Lox
