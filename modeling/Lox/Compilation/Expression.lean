import Lox.Compilation.Draft
import Lox.Syntax.Operator

/-!
# Compiling expressions

An expression at a level is an operand followed by the connectives that bind at least as tightly,
each with its right operand. Its code leaves one value on the stack: the code of the operands comes
in the order of the source, and that of an operator after its operands.

The functions for the parts of an expression take the function for whole expressions as an
argument, `expr`. `expressionAt` ties the knot: each expression inside an expression has one level
of nesting less at its disposal, and where none is left the source is nested too deeply.

## Main definitions

* `Draft.operand`: the operand whose first token has just been passed.
* `Draft.connect`: the connective just passed, with its right operand.
* `Draft.expressionAt`: an expression at a level of precedence.
* `Draft.expression`: a whole expression.
-/

namespace Lox

/-- The instruction of an operator of one operand. -/
def UnaryOp.opCode : UnaryOp → OpCode
  | negate => .negate
  | not => .not

/-- The instructions of an operator of two operands. The comparisons without an instruction of
their own are negations. -/
def BinaryOp.opCodes : BinaryOp → List OpCode
  | equal => [.equal]
  | notEqual => [.equal, .not]
  | greater => [.greater]
  | greaterEqual => [.less, .not]
  | less => [.less]
  | lessEqual => [.greater, .not]
  | add => [.add]
  | subtract => [.subtract]
  | multiply => [.multiply]
  | divide => [.divide]

/-- The instruction of a literal that is a word. -/
def Literal.opCode : Literal → OpCode
  | nil => .nil
  | bool true => .true
  | bool false => .false

namespace Draft

/-! ### Operands -/

/-- The text between the quotes of a string token. -/
def unquote (lexeme : String) : String :=
  String.ofList (lexeme.toList.drop 1).dropLast

/-- Reads or assigns a variable whose name has just been passed, by the instructions for it. It is
assigned if an `=` follows where an assignment may stand. -/
def access (expr : Precedence → Draft → Draft) (assignable : Bool) (get set : OpCode)
    (operand : UInt8) (d : Draft) : Draft :=
  if assignable && d.check .equal then (expr .assignment d.advance).emitOpByte set operand
  else d.emitOpByte get operand

/-- Compiles the use of the name just passed. What is not the name of a local is that of a
global. -/
def nameUse (expr : Precedence → Draft → Draft) (assignable : Bool) (d : Draft) : Draft :=
  let name := d.previous.lexeme
  match d.scope.resolve name with
  | .error cause => d.failAtPrevious (.scope cause)
  | .ok (some slot) => access expr assignable .getLocal .setLocal (UInt8.ofNat slot) d
  | .ok none =>
    let (index, d) := d.stringConstant name
    access expr assignable .getGlobal .setGlobal index d

/-- Compiles the operand whose first token has just been passed. -/
def operand (expr : Precedence → Draft → Draft) (opening : Opening) (assignable : Bool)
    (d : Draft) : Draft :=
  match opening with
  | .grouping => (expr .assignment d).expect .rightParen .closeExpression
  | .unary op => (expr .unary d).emitOp op.opCode
  | .number => d.emitConstant (.number (Number.parse d.previous.lexeme))
  | .string =>
    let (index, d) := d.stringConstant (unquote d.previous.lexeme)
    d.emitOpByte .constant index
  | .literal value => d.emitOp value.opCode
  | .variable => nameUse expr assignable d

/-! ### Connectives -/

/-- Compiles the right operand of `and`. If the left one is falsey it is the result and the right
one is jumped over. -/
def conjunction (expr : Precedence → Draft → Draft) (d : Draft) : Draft :=
  let (done, d) := d.emitJump .jumpIfFalse
  let d := d.emitOp .pop
  (expr .and d).patchJump done

/-- Compiles the right operand of `or`. If the left one is not falsey it is the result and the
right one is jumped over. -/
def disjunction (expr : Precedence → Draft → Draft) (d : Draft) : Draft :=
  let (other, d) := d.emitJump .jumpIfFalse
  let (done, d) := d.emitJump .jump
  let d := (d.patchJump other).emitOp .pop
  (expr .or d).patchJump done

/-- Compiles the connective just passed, with its right operand. -/
def connect (expr : Precedence → Draft → Draft) (connective : Connective) (d : Draft) : Draft :=
  match connective with
  | .binary op => op.opCodes.foldl emitOp (expr op.precedence.next d)
  | .and => conjunction expr d
  | .or => disjunction expr d

/-- Compiles connectives as long as they bind at least as tightly as a level. The list bounds the
number of connectives. -/
def connectives (expr : Precedence → Draft → Draft) (level : Precedence) :
    List Token → Draft → Draft
  | [], d => d
  | _ :: bound, d =>
    match d.current.kind.connective? with
    | none => d
    | some connective =>
      if level ≤ connective.precedence then
        connectives expr level bound (connect expr connective d.advance)
      else d

/-! ### Expressions -/

/-- Compiles the expression at a level whose first token has just been passed. An `=` that is left
over where an assignment may stand follows something that cannot be assigned. -/
def operandAndConnectives (expr : Precedence → Draft → Draft) (level : Precedence) (d : Draft) :
    Draft :=
  match d.previous.kind.opening? with
  | none => d.failAtPrevious (.expected .expression)
  | some opening =>
    let assignable := decide (level ≤ .assignment)
    let d := operand expr opening assignable d
    let d := connectives expr level d.ahead d
    if assignable && d.check .equal then d.advance.failAtPrevious .invalidAssignmentTarget else d

/-- Compiles an expression at a level of precedence, with a number of levels of nesting left. -/
def expressionAt : (levels : Nat) → Precedence → Draft → Draft
  | 0, _, d => d.failAtCurrent .nestingTooDeep
  | levels + 1, level, d => operandAndConnectives (expressionAt levels) level d.advance

/-- Compiles a whole expression. -/
def expression (levels : Nat) (d : Draft) : Draft := expressionAt levels .assignment d

end Draft

end Lox
