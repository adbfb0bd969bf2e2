import Lox.LocalScope
import Lox.Token

/-!
# Diagnostics

A diagnostic says what is wrong with a source, and at which token. The problem is kept as a cause;
its wording is in `Problem.message`.

## Main definitions

* `Problem`: what is wrong, with `Expectation` for what should have been there.
* `Location`: how the place is named to a user.
* `Diagnostic`: problem, location, span and line, with `Diagnostic.message`.
-/

namespace Lox

/-- What the source should have had where it has something else. -/
inductive Expectation where
  | expression
  | closeExpression
  | variableName
  | endOfVariable
  | endOfPrint
  | endOfExpression
  | closeBlock
  | openIf
  | openWhile
  | openFor
  | closeCondition
  | endOfLoopCondition
  | closeFor
  deriving DecidableEq, Repr, Inhabited

/-- The words for what is expected. -/
def Expectation.text : Expectation → String
  | expression => "expression"
  | closeExpression => "')' after expression"
  | variableName => "variable name"
  | endOfVariable => "';' after variable declaration"
  | endOfPrint => "';' after value"
  | endOfExpression => "';' after expression"
  | closeBlock => "'\x7d' after block"
  | openIf => "'(' after 'if'"
  | openWhile => "'(' after 'while'"
  | openFor => "'(' after 'for'"
  | closeCondition => "')' after condition"
  | endOfLoopCondition => "';' after loop condition"
  | closeFor => "')' after for clauses"

/-- What is wrong with a source. -/
inductive Problem where
  | lexical (cause : LexicalError)
  | expected (what : Expectation)
  | scope (cause : ScopeError)
  | tooManyConstants
  | jumpTooLarge
  | loopTooLarge
  | invalidAssignmentTarget
  | nestingTooDeep
  deriving DecidableEq, Repr, Inhabited

/-- The sentence about a problem. -/
def Problem.message : Problem → String
  | lexical cause => cause.message
  | expected what => "Expect " ++ what.text ++ "."
  | scope cause => cause.message
  | tooManyConstants => "Too many constants in one chunk."
  | jumpTooLarge => "Too much code to jump over."
  | loopTooLarge => "Loop body too large."
  | invalidAssignmentTarget => "Invalid assignment target."
  | nestingTooDeep => "Expression nested too deeply."

/-- How the place of a problem is named. The text of a lexical error means nothing to a user, so
such an error has no location. -/
inductive Location where
  | lexeme (text : String)
  | endOfSource
  | unlocated
  deriving DecidableEq, Repr, Inhabited

/-- The words for a location. -/
def Location.text : Location → String
  | lexeme text => " at '" ++ text ++ "'"
  | endOfSource => " at end"
  | unlocated => ""

/-- The location of a token. -/
def Location.ofToken (token : Token) : Location :=
  match token.kind with
  | .endOfSource => endOfSource
  | .invalid _ => unlocated
  | _ => lexeme token.lexeme

/-- A problem at a token of a source. -/
structure Diagnostic where
  line : Nat
  location : Location
  span : Span
  problem : Problem
  deriving DecidableEq, Repr, Inhabited

namespace Diagnostic

/-- The diagnostic of a problem at a token. -/
def ofToken (token : Token) (problem : Problem) : Diagnostic :=
  ⟨token.line, .ofToken token, token.span, problem⟩

/-- What a user reads. -/
def message (d : Diagnostic) : String :=
  "[line " ++ toString d.line ++ "] Error" ++ d.location.text ++ ": " ++ d.problem.message

end Diagnostic

end Lox
