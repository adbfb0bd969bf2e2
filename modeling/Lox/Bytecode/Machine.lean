import Lox.Bytecode.Chunk
import Lox.World

/-!
# The stack machine

The machine runs a chunk in a world. It keeps an offset into the code, a stack of values and the
lines printed so far; the world it was started in is the only other thing it changes.

A run ends at a halt instruction with an empty stack, or at the first instruction that fails. What
a failing run has done to the world stays done. Chunks from a successful compilation fail only with
the errors a program can be blamed for; the other errors are for arbitrary bytes.

## Main definitions

* `Machine`: the state of a run.
* `RuntimeError`: the ways an instruction fails, with their messages.
* `Machine.step`: one instruction.
* `Machine.run`: a number of instructions.
-/

namespace Lox

/-- Why an instruction fails. -/
inductive RuntimeError where
  | operandsNotNumbers
  | operandsNotAddable
  | operandNotNumber
  | undefinedVariable (name : String)
  | stackUnderflow
  | emptyStack
  | unknownOpCode (byte : UInt8)
  | nameNotString
  | valuesLeft (count : Nat)
  | outsideCode (offset : Nat)
  | outsideConstants (index : Nat)
  | outsideStack (slot : Nat)
  | jumpBeforeStart (offset distance : Nat)
  deriving DecidableEq, Repr

/-- The sentence a user reads about a runtime error. -/
def RuntimeError.message : RuntimeError → String
  | operandsNotNumbers => "Operands must be numbers."
  | operandsNotAddable => "Operands must be two numbers or two strings."
  | operandNotNumber => "Operand must be a number."
  | undefinedVariable name => "Undefined variable '" ++ name ++ "'."
  | stackUnderflow => "stack underflow"
  | emptyStack => "empty stack"
  | unknownOpCode byte => Lox.unknownOpCode byte
  | nameNotString => "global name is not a string"
  | valuesLeft count => toString count ++ " values left on the stack"
  | outsideCode offset => "no instruction at offset " ++ toString offset
  | outsideConstants index => "no constant at index " ++ toString index
  | outsideStack slot => "no value in slot " ++ toString slot
  | jumpBeforeStart offset distance =>
    "jump of " ++ toString distance ++ " bytes back from offset " ++ toString offset

/-- The state of a run. The top of the stack is its last value. -/
structure Machine where
  offset : Nat
  stack : Array Value
  output : Array String
  world : World
  deriving DecidableEq, Repr

/-- What an instruction leads to. -/
inductive Progress where
  | running (next : Machine)
  | finished
  | failed (error : RuntimeError)
  deriving DecidableEq, Repr

/-- How a run ends: the world it leaves, and the printed lines or the error. -/
structure Outcome where
  world : World
  result : Except RuntimeError (Array String)

namespace Machine

/-- The state at the start of a run. -/
def start (world : World) : Machine := ⟨0, #[], #[], world⟩

/-! ### The stack -/

/-- Puts a value on the stack. -/
def push (m : Machine) (value : Value) : Machine := { m with stack := m.stack.push value }

/-- Takes the top value off the stack. -/
def pop (m : Machine) : Except RuntimeError (Value × Machine) :=
  match m.stack.back? with
  | some value => .ok (value, { m with stack := m.stack.pop })
  | none => .error .stackUnderflow

/-- The top value of the stack. -/
def peek (m : Machine) : Except RuntimeError Value :=
  match m.stack.back? with
  | some value => .ok value
  | none => .error .emptyStack

/-- Takes two numbers off the stack and puts a value made of them there. -/
def onNumbers (m : Machine) (f : Float → Float → Value) : Except RuntimeError Machine := do
  let (b, m) ← m.pop
  let (a, m) ← m.pop
  match a, b with
  | .number x, .number y => pure (m.push (f x y))
  | _, _ => throw .operandsNotNumbers

/-- Takes two numbers off the stack and puts their sum there, or the concatenation of two
strings. -/
def add (m : Machine) : Except RuntimeError Machine := do
  let (b, m) ← m.pop
  let (a, m) ← m.pop
  match a, b with
  | .number x, .number y => pure (m.push (.number (x + y)))
  | .string x, .string y =>
    let (symbol, world) := m.world.intern (m.world.interner.text x ++ m.world.interner.text y)
    pure ({ m with world }.push (.string symbol))
  | _, _ => throw .operandsNotAddable

/-! ### Operands -/

/-- The constant at an index. -/
def constant (c : Chunk) (index : Nat) : Except RuntimeError Value :=
  match c.constants[index]? with
  | some value => .ok value
  | none => .error (.outsideConstants index)

/-- The name at an index of the constant pool. -/
def globalName (c : Chunk) (index : Nat) : Except RuntimeError Symbol := do
  match ← constant c index with
  | .string name => pure name
  | _ => throw .nameNotString

/-- The error about a global that has no value. -/
def undefined (m : Machine) (name : Symbol) : RuntimeError :=
  .undefinedVariable (m.world.interner.text name)

/-! ### Running -/

/-- Executes an instruction other than halt with its operand, a byte or a distance, on a machine
whose offset is already that of the next instruction. -/
def execute (c : Chunk) (m : Machine) (op : OpCode) (operand distance : Nat) :
    Except RuntimeError Machine := do
  match op with
  | .constant => return m.push (← constant c operand)
  | .nil => return m.push .nil
  | .true => return m.push (.bool true)
  | .false => return m.push (.bool false)
  | .pop => return (← m.pop).2
  | .getLocal =>
    match m.stack[operand]? with
    | some value => return m.push value
    | none => throw (.outsideStack operand)
  | .setLocal =>
    let value ← m.peek
    if operand < m.stack.size then
      return { m with stack := m.stack.setIfInBounds operand value }
    else throw (.outsideStack operand)
  | .getGlobal =>
    let name ← globalName c operand
    match m.world.globals.find? name with
    | some value => return m.push value
    | none => throw (m.undefined name)
  | .defineGlobal =>
    let name ← globalName c operand
    let (value, m) ← m.pop
    let globals := (m.world.globals.insert name value).2
    return { m with world := { m.world with globals } }
  | .setGlobal =>
    let name ← globalName c operand
    let value ← m.peek
    match m.world.globals.replace name value with
    | (some _, globals) => return { m with world := { m.world with globals } }
    | (none, _) => throw (m.undefined name)
  | .equal =>
    let (b, m) ← m.pop
    let (a, m) ← m.pop
    return m.push (.bool (a.equals b))
  | .greater => m.onNumbers fun x y => .bool (x > y)
  | .less => m.onNumbers fun x y => .bool (x < y)
  | .add => m.add
  | .subtract => m.onNumbers fun x y => .number (x - y)
  | .multiply => m.onNumbers fun x y => .number (x * y)
  | .divide => m.onNumbers fun x y => .number (x / y)
  | .not =>
    let (a, m) ← m.pop
    return m.push (.bool a.isFalsey)
  | .negate =>
    let (a, m) ← m.pop
    match a with
    | .number x => return m.push (.number (-x))
    | _ => throw .operandNotNumber
  | .print =>
    let (a, m) ← m.pop
    return { m with output := m.output.push (a.display m.world.interner) }
  | .jump => return { m with offset := m.offset + distance }
  | .jumpIfFalse =>
    let condition ← m.peek
    return if condition.isFalsey then { m with offset := m.offset + distance } else m
  | .loop =>
    if distance ≤ m.offset then return { m with offset := m.offset - distance }
    else throw (.jumpBeforeStart m.offset distance)
  | .halt => return m

/-- Executes the instruction at the offset of the machine. An operand that the code does not have
counts as zero. -/
def step (c : Chunk) (m : Machine) : Progress :=
  match c.code[m.offset]? with
  | none => .failed (.outsideCode m.offset)
  | some byte =>
    match OpCode.ofByte? byte with
    | none => .failed (.unknownOpCode byte)
    | some .halt =>
      if m.stack.isEmpty then .finished else .failed (.valuesLeft m.stack.size)
    | some op =>
      let operand := ((c.code[m.offset + 1]?).getD 0).toNat
      let distance := (c.read16? (m.offset + 1)).getD 0
      match execute c { m with offset := m.offset + op.size } op operand distance with
      | .ok next => .running next
      | .error e => .failed e

/-- Executes at most a number of instructions, and answers how the run ends if it ends within
them. -/
def run (c : Chunk) : (limit : Nat) → Machine → Option Outcome
  | 0, _ => none
  | limit + 1, m =>
    match m.step c with
    | .running next => next.run c limit
    | .finished => some ⟨m.world, .ok m.output⟩
    | .failed e => some ⟨m.world, .error e⟩

end Machine

end Lox
