import Lox.Compilation

/-!
# Compiling with a counter

Compiling once more, told by the calls that are made. How deep the source is nested is counted by a
counter: a guard compares it with the limit, and a call that gets past its guard counts up when it
begins and down when it returns. The counter is part of the state and passed on from one call to the
next, while `active`, the number of calls that have got past their guards and have not returned, is
handed down from each call to those that it makes.

What happens is put down in a log, moment by moment. How deep calls may go is bounded from outside as
well, by fuel; a call for which none is left is put down too.

A sequence of declarations would go on for ever once it has come to one that reads no token. It is
given up, but only after some rounds more than there are tokens, so that the log shows as much as one
likes of a compilation that never ends.

## Main definitions

* `Counted`: a draft, the counter and the log.
* `Counted.History`: what may happen, with all of it put down.
* `Counted.nested`: a call that has got past its guard.
* `Counted.expressionAt`, `Counted.statement`, `Counted.declaration`: the entry points.
* `Counted.ofSource`: compiling a whole source.
-/

namespace Lox

/-- The constructs whose calls are put down when they return. -/
inductive Construct where
  | declaration
  | statement
  | expression
  deriving DecidableEq, Repr

/-- What a call is to leave as it was: the counter, and of the scope its depth. -/
structure Standing where
  nesting : Nat
  scope : LocalScope
  deriving DecidableEq, Repr

/-- What is put down in the log. -/
inductive Event where
  /-- A moment, with the number of active calls and the counter. -/
  | moment (active nesting : Nat)
  /-- The return of a call, with what it found and what it left. -/
  | returned (construct : Construct) (entry exit : Standing)
  /-- A call that there was no fuel for. -/
  | exhausted
  deriving DecidableEq, Repr

/-- A compilation under way, with a counter. -/
structure Counted where
  draft : Draft
  /-- How deep the source is nested. -/
  nesting : Nat
  /-- What has happened, the latest first. -/
  log : List Event

namespace Counted

/-! ### Moments and calls -/

/-- What a call finds or leaves. -/
def standing (s : Counted) : Standing := ⟨s.nesting, s.draft.scope⟩

/-- All that may happen while a number of counted calls are active, each time with what is put down:
a change of the draft, a counted call with what happens inside it, and a call with its return. -/
inductive History : Nat → Counted → Counted → Prop
  | nothing {active : Nat} (s : Counted) : History active s s
  | trans {active : Nat} {s s' s'' : Counted} (h : History active s s')
      (h' : History active s' s'') : History active s s''
  | change {active : Nat} (s : Counted) (draft : Draft) :
      History active s ⟨draft, s.nesting, .moment active s.nesting :: s.log⟩
  | nested {active : Nat} {s s' : Counted}
      (h : History (active + 1)
        ⟨s.draft, s.nesting + 1, .moment (active + 1) (s.nesting + 1) :: s.log⟩ s') :
      History active s ⟨s'.draft, s'.nesting - 1, .moment active (s'.nesting - 1) :: s'.log⟩
  | returned {active : Nat} {s s' : Counted} (construct : Construct) (h : History active s s') :
      History active s
        ⟨s'.draft, s'.nesting, .returned construct s.standing s'.standing :: s'.log⟩

/-- Puts an event down. -/
def note (event : Event) (s : Counted) : Counted := { s with log := event :: s.log }

/-- Changes the draft. -/
def on (active : Nat) (f : Draft → Draft) (s : Counted) : Counted :=
  note (.moment active s.nesting) { s with draft := f s.draft }

/-- Changes the draft, with an answer. -/
def take {α : Type} (active : Nat) (f : Draft → α × Draft) (s : Counted) : α × Counted :=
  ((f s.draft).1, s.on active fun d => (f d).2)

/-- A call that has got past its guard: it is counted while it is active. -/
def nested (active : Nat) (piece : Nat → Counted → Counted) (s : Counted) : Counted :=
  let nesting := s.nesting + 1
  let s := piece (active + 1) (note (.moment (active + 1) nesting) { s with nesting })
  let nesting := s.nesting - 1
  note (.moment active nesting) { s with nesting }

/-- A call whose return is put down. -/
def returning (construct : Construct) (piece : Counted → Counted) (s : Counted) : Counted :=
  let after := piece s
  note (.returned construct s.standing after.standing) after

/-! ### Expressions -/

section Expressions

variable (active : Nat) (expr : Precedence → Counted → Counted)

/-- Reads or assigns a variable, by the instructions for it. -/
def access (assignable : Bool) (get set : OpCode) (operand : UInt8) (s : Counted) : Counted :=
  if assignable && s.draft.check .equal then
    (expr .assignment (s.on active .advance)).on active (·.emitOpByte set operand)
  else s.on active (·.emitOpByte get operand)

/-- Compiles the use of the name just passed. -/
def nameUse (assignable : Bool) (s : Counted) : Counted :=
  let name := s.draft.previous.lexeme
  match s.draft.scope.resolve name with
  | .error cause => s.on active (·.failAtPrevious (.scope cause))
  | .ok (some slot) =>
    access active expr assignable .getLocal .setLocal (UInt8.ofNat slot) s
  | .ok none =>
    let (index, s) := s.take active (·.stringConstant name)
    access active expr assignable .getGlobal .setGlobal index s

/-- Compiles the operand whose first token has just been passed. -/
def operand (opening : Opening) (assignable : Bool) (s : Counted) : Counted :=
  match opening with
  | .grouping => (expr .assignment s).on active (·.expect .rightParen .closeExpression)
  | .unary op => (expr .unary s).on active (·.emitOp op.opCode)
  | .number => s.on active fun d => d.emitConstant (.number (Number.parse d.previous.lexeme))
  | .string =>
    let (index, s) := s.take active fun d => d.stringConstant (Draft.unquote d.previous.lexeme)
    s.on active (·.emitOpByte .constant index)
  | .literal value => s.on active (·.emitOp value.opCode)
  | .variable => nameUse active expr assignable s

/-- Compiles the right operand of `and`. -/
def conjunction (s : Counted) : Counted :=
  let (done, s) := s.take active (·.emitJump .jumpIfFalse)
  let s := s.on active (·.emitOp .pop)
  (expr .and s).on active (·.patchJump done)

/-- Compiles the right operand of `or`. -/
def disjunction (s : Counted) : Counted :=
  let (other, s) := s.take active (·.emitJump .jumpIfFalse)
  let (done, s) := s.take active (·.emitJump .jump)
  let s := s.on active fun d => (d.patchJump other).emitOp .pop
  (expr .or s).on active (·.patchJump done)

/-- Compiles the connective just passed, with its right operand. -/
def connect (connective : Connective) (s : Counted) : Counted :=
  match connective with
  | .binary op => (expr op.precedence.next s).on active (op.opCodes.foldl Draft.emitOp)
  | .and => conjunction active expr s
  | .or => disjunction active expr s

/-- Compiles connectives as long as they bind at least as tightly as a level, and at most a number of
them. -/
def connectives (level : Precedence) : (bound : Nat) → Counted → Counted
  | 0, s => s
  | bound + 1, s =>
    match s.draft.current.kind.connective? with
    | none => s
    | some connective =>
      if level ≤ connective.precedence then
        connectives level bound (connect active expr connective (s.on active .advance))
      else s

/-- Compiles the expression at a level whose first token has just been passed. -/
def operandAndConnectives (level : Precedence) (s : Counted) : Counted :=
  match s.draft.previous.kind.opening? with
  | none => s.on active (·.failAtPrevious (.expected .expression))
  | some opening =>
    let assignable := decide (level ≤ .assignment)
    let s := operand active expr opening assignable s
    let s := connectives active expr level s.draft.ahead.length s
    if assignable && s.draft.check .equal then
      s.on active (·.advance.failAtPrevious .invalidAssignmentTarget)
    else s

end Expressions

/-- Compiles an expression at a level of precedence. -/
def expressionAt (limit : Nat) : (fuel active : Nat) → Precedence → Counted → Counted
  | 0, _, _ => note .exhausted
  | fuel + 1, active, level => returning .expression fun s =>
    if limit ≤ s.nesting then s.on active (·.failAtCurrent .nestingTooDeep)
    else s.nested active fun active s =>
      operandAndConnectives active (expressionAt limit fuel active) level (s.on active .advance)

/-! ### Statements -/

section Statements

variable (active : Nat) (expr : Precedence → Counted → Counted) (body : Counted → Counted)

/-- Compiles an expression whose value is dropped. -/
def expressionStatement (s : Counted) : Counted :=
  (expr .assignment s).on active fun d => (d.expect .semicolon .endOfExpression).emitOp .pop

/-- Compiles a print statement whose keyword has just been passed. -/
def printStatement (s : Counted) : Counted :=
  (expr .assignment s).on active fun d => (d.expect .semicolon .endOfPrint).emitOp .print

/-- Compiles the initial value of a variable. -/
def initialValue (s : Counted) : Counted :=
  let s := if s.draft.check .equal then expr .assignment (s.on active .advance)
    else s.on active (·.emitOp .nil)
  s.on active (·.expect .semicolon .endOfVariable)

/-- Compiles a declaration of a variable whose keyword has just been passed. -/
def varDeclaration (s : Counted) : Counted :=
  let s := s.on active (·.expect .identifier .variableName)
  let name := s.draft.previous.lexeme
  if s.draft.scope.isGlobal then
    let (index, s) := s.take active (·.stringConstant name)
    (initialValue active expr s).on active (·.emitOpByte .defineGlobal index)
  else
    let s := s.on active (·.declareLocal name)
    (initialValue active expr s).on active .completeLocal

/-- Compiles an if statement whose keyword has just been passed. -/
def ifStatement (s : Counted) : Counted :=
  let s := s.on active (·.expect .leftParen .openIf)
  let s := (expr .assignment s).on active (·.expect .rightParen .closeCondition)
  let (other, s) := s.take active (·.emitJump .jumpIfFalse)
  let s := body (s.on active (·.emitOp .pop))
  let (done, s) := s.take active (·.emitJump .jump)
  let s := s.on active fun d => (d.patchJump other).emitOp .pop
  let s := if s.draft.check .kwElse then body (s.on active .advance) else s
  s.on active (·.patchJump done)

/-- Compiles a while statement whose keyword has just been passed. -/
def whileStatement (s : Counted) : Counted :=
  let again := s.draft.size
  let s := s.on active (·.expect .leftParen .openWhile)
  let s := (expr .assignment s).on active (·.expect .rightParen .closeCondition)
  let (done, s) := s.take active (·.emitJump .jumpIfFalse)
  let s := body (s.on active (·.emitOp .pop))
  s.on active fun d => ((d.emitLoop again).patchJump done).emitOp .pop

/-- Compiles the first clause of a for statement. -/
def forInitial (s : Counted) : Counted :=
  if s.draft.check .semicolon then s.on active .advance
  else if s.draft.check .kwVar then varDeclaration active expr (s.on active .advance)
  else expressionStatement active expr s

/-- Compiles the condition of a for statement, and answers where the jump out of the loop is. -/
def forCondition (s : Counted) : Option Nat × Counted :=
  if s.draft.check .semicolon then (none, s.on active .advance)
  else
    let s := (expr .assignment s).on active (·.expect .semicolon .endOfLoopCondition)
    let (done, s) := s.take active (·.emitJump .jumpIfFalse)
    (some done, s.on active (·.emitOp .pop))

/-- Compiles the last clause of a for statement, and answers to which offset the body jumps back. -/
def forIncrement (condition : Nat) (s : Counted) : Nat × Counted :=
  if s.draft.check .rightParen then (condition, s.on active .advance)
  else
    let (body, s) := s.take active (·.emitJump .jump)
    let increment := s.draft.size
    let s := (expr .assignment s).on active fun d =>
      (d.emitOp .pop).expect .rightParen .closeFor
    (increment, s.on active fun d => (d.emitLoop condition).patchJump body)

/-- Compiles a for statement whose keyword has just been passed. -/
def forStatement (s : Counted) : Counted :=
  let s := s.on active (·.beginScope.expect .leftParen .openFor)
  let s := forInitial active expr s
  let condition := s.draft.size
  let (done, s) := forCondition active expr s
  let (again, s) := forIncrement active expr condition s
  let s := (body s).on active (·.emitLoop again)
  let s := match done with
    | some done => s.on active fun d => (d.patchJump done).emitOp .pop
    | none => s
  s.on active .endScope

/-- Compiles a declaration, by `body` if it is a statement, and recovers if something was wrong. -/
def declaration : Counted → Counted := returning .declaration fun s =>
  let s := if s.draft.check .kwVar then varDeclaration active expr (s.on active .advance)
    else body s
  if s.draft.panicking then s.on active .synchronize else s

/-- Compiles declarations up to a closing token or the end of the source, and at most a number of
them. -/
def declarations (compile : Counted → Counted) (closing : TokenKind) :
    (bound : Nat) → Counted → Counted
  | bound, s =>
    if s.draft.stalled || s.draft.check closing || s.draft.check .endOfSource then s
    else match bound with
      | 0 => s.on active fun d => { d with stalled := true }
      | bound + 1 => declarations compile closing bound (compile s)

end Statements

section Nesting

variable (limit patience : Nat)

/-- Compiles a statement with a body, unless one more level would leave none for its clauses. -/
def nestedStatement (active : Nat) (compile : Nat → Counted → Counted) (s : Counted) : Counted :=
  if limit ≤ s.nesting + 1 then s.on active .skipStatement else s.nested active compile

/-- Compiles a block whose brace has just been passed, by `compile` for its declarations. -/
def block (active : Nat) (compile : Nat → Counted → Counted) (s : Counted) : Counted :=
  if limit ≤ s.nesting then s.on active .skipBlock
  else s.nested active fun active s =>
    (declarations active (compile active) .rightBrace (s.draft.ahead.length + patience) s).on active
      (·.expect .rightBrace .closeBlock)

/-- Compiles a statement, `body` being the function for the statements inside it. -/
def statementWith (expr : Nat → Precedence → Counted → Counted) (body : Nat → Counted → Counted)
    (active : Nat) (s : Counted) : Counted :=
  match s.draft.current.kind with
  | .kwPrint => printStatement active (expr active) (s.on active .advance)
  | .kwIf => nestedStatement limit active
      (fun active => ifStatement active (expr active) (body active)) (s.on active .advance)
  | .kwWhile => nestedStatement limit active
      (fun active => whileStatement active (expr active) (body active)) (s.on active .advance)
  | .kwFor => nestedStatement limit active
      (fun active => forStatement active (expr active) (body active)) (s.on active .advance)
  | .leftBrace =>
    let s := s.on active (·.advance.beginScope)
    (block limit patience active (fun active => declaration active (expr active) (body active))
      s).on active .endScope
  | _ => expressionStatement active (expr active) s

/-- Compiles a statement. -/
def statement : (fuel active : Nat) → Counted → Counted
  | 0, _ => note .exhausted
  | fuel + 1, active => returning .statement <|
    statementWith limit patience (expressionAt limit (limit + 1)) (statement fuel) active

end Nesting

/-- A whole source: all its declarations, and a halt. Calls may go one deeper than the limit. -/
def ofSource (limits : Limits) (interner : Interner) (source : String) (patience : Nat) :
    Counted :=
  let s : Counted := ⟨.start source limits.locals interner, 0, []⟩
  let compile := declaration 0 (expressionAt limits.nesting (limits.nesting + 1) 0)
    (statement limits.nesting patience (limits.nesting + 1) 0)
  (declarations 0 compile .endOfSource (s.draft.ahead.length + patience) s).on 0
    (·.advance.emitOp .halt)

end Counted

end Lox
