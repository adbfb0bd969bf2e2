import Lox.Compilation.Expression

/-!
# Compiling statements

The code of a statement leaves the stack as it was, but for the locals that a declaration adds.

A statement inside a statement has one level of nesting less at its disposal, and so has the
declaration inside a block. Where no level is left, a block is reported and skipped whole; so is a
statement with a body already when only one level is left, since its clauses need that one.

## Main definitions

* `Draft.varDeclaration`: a declaration of a variable.
* `Draft.ifStatement`, `Draft.whileStatement`, `Draft.forStatement`: the statements with a body.
* `Draft.skipStatement`, `Draft.skipBlock`: what is nested too deeply.
* `Draft.statement`, `Draft.declaration`, `Draft.declarations`: the entry points.
-/

namespace Lox

namespace Draft

/-! ### Statements without a body -/

/-- Compiles an expression whose value is dropped, up to its semicolon. -/
def expressionStatement (levels : Nat) (d : Draft) : Draft :=
  ((d.expression levels).expect .semicolon .endOfExpression).emitOp .pop

/-- Compiles a print statement whose keyword has just been passed. -/
def printStatement (levels : Nat) (d : Draft) : Draft :=
  ((d.expression levels).expect .semicolon .endOfPrint).emitOp .print

/-- Compiles the initial value of a variable, nil if there is none, up to the semicolon. -/
def initialValue (levels : Nat) (d : Draft) : Draft :=
  let d := if d.check .equal then d.advance.expression levels else d.emitOp .nil
  d.expect .semicolon .endOfVariable

/-- Compiles a declaration of a variable whose keyword has just been passed. A local is declared
before its initial value is compiled and can be used after; its value stays on the stack. -/
def varDeclaration (levels : Nat) (d : Draft) : Draft :=
  let d := d.expect .identifier .variableName
  let name := d.previous.lexeme
  if d.scope.isGlobal then
    let (index, d) := d.stringConstant name
    (d.initialValue levels).emitOpByte .defineGlobal index
  else ((d.declareLocal name).initialValue levels).completeLocal

/-! ### What is nested too deeply -/

/-- Passes the rest of a block of which a number of braces are open, up to the brace that closes
it. The list bounds the number of tokens passed. -/
def passBlock : List Token → (braces : Nat) → Draft → Draft
  | [], _, d => d
  | _ :: bound, braces, d =>
    if d.check .endOfSource then d
    else
      let braces := match d.current.kind with
        | .leftBrace => braces + 1
        | .rightBrace => braces - 1
        | _ => braces
      if braces = 0 then d.advance else passBlock bound braces d.advance

/-- Passes the rest of a statement inside which some parentheses and braces are open, together with
the `else` branches after it. It ends before a brace that closes a block around it. The list bounds
the number of tokens passed. -/
def passStatement : List Token → (parens braces : Nat) → Draft → Draft
  | [], _, _, d => d
  | _ :: bound, parens, braces, d =>
    let kind := d.current.kind
    if kind = .endOfSource ∨ (kind = .rightBrace ∧ braces = 0) then d
    else
      let parens := match kind with
        | .leftParen => parens + 1
        | .rightParen => parens - 1
        | _ => parens
      let braces := match kind with
        | .leftBrace => braces + 1
        | .rightBrace => braces - 1
        | _ => braces
      let d := d.advance
      if parens = 0 ∧ braces = 0 ∧ (kind = .semicolon ∨ kind = .rightBrace) then
        if d.check .kwElse then passStatement bound parens braces d.advance else d
      else passStatement bound parens braces d

/-- Reports at the token just passed that what it starts is nested too deeply, and passes that by.
Since no recovery is needed after that, the draft is panicking afterwards only if it was before. -/
def skip (pass : Draft → Draft) (d : Draft) : Draft :=
  let panicking := d.panicking
  { pass (d.failAtPrevious .nestingTooDeep) with panicking }

/-- Skips a block whose brace has just been passed. -/
def skipBlock (d : Draft) : Draft := d.skip fun d => passBlock d.ahead 1 d

/-- Skips a statement whose keyword has just been passed. -/
def skipStatement (d : Draft) : Draft := d.skip fun d => passStatement d.ahead 0 0 d

/-! ### Statements with a body

In these, `levels` is what is left inside the statement, and `body` compiles a statement there. -/

/-- Compiles an if statement whose keyword has just been passed. -/
def ifStatement (levels : Nat) (body : Draft → Draft) (d : Draft) : Draft :=
  let d := d.expect .leftParen .openIf
  let d := (d.expression levels).expect .rightParen .closeCondition
  let (other, d) := d.emitJump .jumpIfFalse
  let d := body (d.emitOp .pop)
  let (done, d) := d.emitJump .jump
  let d := (d.patchJump other).emitOp .pop
  let d := if d.check .kwElse then body d.advance else d
  d.patchJump done

/-- Compiles a while statement whose keyword has just been passed. -/
def whileStatement (levels : Nat) (body : Draft → Draft) (d : Draft) : Draft :=
  let again := d.size
  let d := d.expect .leftParen .openWhile
  let d := (d.expression levels).expect .rightParen .closeCondition
  let (done, d) := d.emitJump .jumpIfFalse
  let d := body (d.emitOp .pop)
  ((d.emitLoop again).patchJump done).emitOp .pop

/-- Compiles the first clause of a for statement. -/
def forInitial (levels : Nat) (d : Draft) : Draft :=
  if d.check .semicolon then d.advance
  else if d.check .kwVar then d.advance.varDeclaration levels
  else d.expressionStatement levels

/-- Compiles the condition of a for statement, and answers where the jump out of the loop is. -/
def forCondition (levels : Nat) (d : Draft) : Option Nat × Draft :=
  if d.check .semicolon then (none, d.advance)
  else
    let d := (d.expression levels).expect .semicolon .endOfLoopCondition
    let (done, d) := d.emitJump .jumpIfFalse
    (some done, d.emitOp .pop)

/-- Compiles the last clause of a for statement whose condition starts at an offset, and answers to
which offset the body jumps back. The clause runs after the body, so its code is jumped over
first. -/
def forIncrement (levels : Nat) (condition : Nat) (d : Draft) : Nat × Draft :=
  if d.check .rightParen then (condition, d.advance)
  else
    let (body, d) := d.emitJump .jump
    let increment := d.size
    let d := ((d.expression levels).emitOp .pop).expect .rightParen .closeFor
    (increment, (d.emitLoop condition).patchJump body)

/-- Compiles a for statement whose keyword has just been passed. -/
def forStatement (levels : Nat) (body : Draft → Draft) (d : Draft) : Draft :=
  let d := d.beginScope.expect .leftParen .openFor
  let d := d.forInitial levels
  let condition := d.size
  let (done, d) := d.forCondition levels
  let (again, d) := d.forIncrement levels condition
  let d := (body d).emitLoop again
  let d := match done with
    | some done => (d.patchJump done).emitOp .pop
    | none => d
  d.endScope

/-! ### Statements and declarations -/

/-- Compiles a declaration, by `body` if it is a statement, and recovers if something was wrong. -/
def declaration (levels : Nat) (body : Draft → Draft) (d : Draft) : Draft :=
  let d := if d.check .kwVar then d.advance.varDeclaration levels else body d
  if d.panicking then d.synchronize else d

/-- Compiles declarations up to a closing token or the end of the source. The list bounds their
number: if it is too short, some declaration has read no token and would be compiled for ever. -/
def declarations (compile : Draft → Draft) (closing : TokenKind) : List Token → Draft → Draft
  | bound, d =>
    if d.stalled || d.check closing || d.check .endOfSource then d
    else match bound with
      | [] => { d with stalled := true }
      | _ :: bound => declarations compile closing bound (compile d)

/-- Compiles a block whose brace has just been passed. -/
def block (levels : Nat) (body : Draft → Draft) (d : Draft) : Draft :=
  (declarations (declaration levels body) .rightBrace d.ahead d).expect .rightBrace .closeBlock

/-- Compiles a statement with a number of levels left, `body` being the function for the statements
inside it. -/
def statementWith (levels : Nat) (body : Draft → Draft) (d : Draft) : Draft :=
  let nested (compile : Nat → (Draft → Draft) → Draft → Draft) (d : Draft) : Draft :=
    if levels ≤ 1 then d.skipStatement else compile (levels - 1) body d
  match d.current.kind with
  | .kwPrint => d.advance.printStatement levels
  | .kwIf => nested ifStatement d.advance
  | .kwWhile => nested whileStatement d.advance
  | .kwFor => nested forStatement d.advance
  | .leftBrace =>
    let d := d.advance.beginScope
    let d := if levels = 0 then d.skipBlock else d.block (levels - 1) body
    d.endScope
  | _ => d.expressionStatement levels

/-- Compiles a statement, with a number of levels of nesting left. -/
def statement : (levels : Nat) → Draft → Draft
  | 0, d => statementWith 0 id d
  | levels + 1, d => statementWith (levels + 1) (statement levels) d

end Draft

end Lox
