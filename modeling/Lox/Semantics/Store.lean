import Lox.Semantics.Datum
import Lox.World
import Mathlib.Logic.Function.Basic

/-!
# Stores

What a program works on while it is evaluated: the global variables, the local variables of the open
scopes, and the lines printed so far. Variables are found by their names.

## Main definitions

* `Store`: the variables and the printed lines, with `Store.get`, `Store.assign`, `Store.declare`.
* `Fault`: the ways an evaluation fails.
* `Evaluation`: what evaluating something does to a store.
* `World.globalsByName`: the globals of a world as a store has them.
-/

namespace Lox

/-! ### Stores -/

/-- The local variables of a scope, the latest first. -/
abbrev Frame := List (String × Datum)

/-- The frame in which the latest variable with the name has another value. -/
def Frame.assign (name : String) (x : Datum) : Frame → Frame
  | [] => []
  | (other, y) :: frame =>
    if other = name then (other, x) :: frame else (other, y) :: Frame.assign name x frame

/-- What a program works on. -/
structure Store where
  globals : String → Option Datum
  /-- The locals of each open scope, the innermost scope first. -/
  frames : List Frame
  output : Array String

namespace Store

/-- The store at the start of a program. -/
def start (globals : String → Option Datum) : Store := ⟨globals, [], #[]⟩

/-- All locals, the innermost first. -/
def locals (s : Store) : Frame := s.frames.flatten

/-- The value of a variable: that of the innermost local with the name, else that of the global. -/
def get (s : Store) (name : String) : Option Datum := (s.locals.lookup name).or (s.globals name)

/-- The frames in which the innermost local with the name has another value. -/
def assignIn (name : String) (x : Datum) : List Frame → List Frame
  | [] => []
  | frame :: outer =>
    if (frame.lookup name).isSome then frame.assign name x :: outer
    else frame :: assignIn name x outer

/-- Gives a variable another value: the innermost local with the name, else the global, if there is
one. -/
def assign (s : Store) (name : String) (x : Datum) : Option Store :=
  if (s.locals.lookup name).isSome then some { s with frames := assignIn name x s.frames }
  else if (s.globals name).isSome then
    some { s with globals := Function.update s.globals name (some x) }
  else none

/-- Declares a variable in the innermost scope, a global if no scope is open. -/
def declare (s : Store) (name : String) (x : Datum) : Store :=
  match s.frames with
  | [] => { s with globals := Function.update s.globals name (some x) }
  | frame :: outer => { s with frames := ((name, x) :: frame) :: outer }

/-- Opens a scope. -/
def enter (s : Store) : Store := { s with frames := [] :: s.frames }

/-- Closes the innermost scope. -/
def leave (s : Store) : Store := { s with frames := s.frames.tail }

/-- Prints a line. -/
def print (s : Store) (line : String) : Store := { s with output := s.output.push line }

end Store

/-- The globals of a world by the texts of their names. -/
def World.globalsByName (w : World) (name : String) : Option Datum :=
  (w.interner.find? name).bind fun symbol => (w.globals.find? symbol).map (Value.datum w.interner)

/-! ### Evaluations -/

/-- Why an evaluation fails. -/
inductive Fault where
  | operandsNotNumbers
  | operandsNotAddable
  | operandNotNumber
  | undefinedVariable (name : String)
  deriving DecidableEq, Repr

/-- The sentence a user reads about a fault. -/
def Fault.message : Fault → String
  | operandsNotNumbers => "Operands must be numbers."
  | operandsNotAddable => "Operands must be two numbers or two strings."
  | operandNotNumber => "Operand must be a number."
  | undefinedVariable name => "Undefined variable '" ++ name ++ "'."

/-- What an evaluation comes to, with the store it leaves. It is unfinished if it goes around some
loop more often than allowed. -/
inductive Evaluated (α : Type) where
  | done (x : α) (s : Store)
  | failed (fault : Fault) (s : Store)
  | unfinished

/-- What evaluating something does to a store. -/
def Evaluation (α : Type) : Type := Store → Evaluated α

namespace Evaluation

instance : Monad Evaluation where
  pure x := fun s => .done x s
  bind f g := fun s =>
    match f s with
    | .done x s => g x s
    | .failed fault s => .failed fault s
    | .unfinished => .unfinished

section Bind

variable {α β : Type} {f : Evaluation α} {s s' : Store}

theorem bind_of_done {x : α} (h : f s = .done x s') (g : α → Evaluation β) :
    (f >>= g) s = g x s' := by simp only [Bind.bind, h]

theorem bind_of_failed {fault : Fault} (h : f s = .failed fault s') (g : α → Evaluation β) :
    (f >>= g) s = .failed fault s' := by simp only [Bind.bind, h]

theorem bind_of_unfinished (h : f s = .unfinished) (g : α → Evaluation β) :
    (f >>= g) s = .unfinished := by simp only [Bind.bind, h]

end Bind

/-- Fails. -/
def fail {α : Type} (fault : Fault) : Evaluation α := .failed fault

/-- Changes the store. -/
def modify (f : Store → Store) : Evaluation Unit := fun s => .done () (f s)

/-- An operation on data, which may fail. -/
def ofExcept {α : Type} : Except Fault α → Evaluation α
  | .ok x => pure x
  | .error fault => fail fault

/-- The value of a variable. -/
def read (name : String) : Evaluation Datum := fun s =>
  match s.get name with
  | some x => .done x s
  | none => .failed (.undefinedVariable name) s

/-- Gives a variable another value, which is also the result. -/
def assign (name : String) (x : Datum) : Evaluation Datum := fun s =>
  match s.assign name x with
  | some s => .done x s
  | none => .failed (.undefinedVariable name) s

/-- An evaluation inside a scope of its own. -/
def inScope (inner : Evaluation Unit) : Evaluation Unit := do
  modify Store.enter
  inner
  modify Store.leave

/-- Repeats a round as long as a condition holds, which is tested before each, but at most a number
of times. -/
def repeatWhile (condition : Evaluation Datum) (round : Evaluation Unit) : Nat → Evaluation Unit
  | 0 => fun _ => .unfinished
  | bound + 1 => do
    if (← condition).isFalsey then return
    round
    repeatWhile condition round bound

end Evaluation

end Lox
