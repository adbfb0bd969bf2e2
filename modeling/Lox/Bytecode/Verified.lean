import Lox.Bytecode.Instruction

/-!
# Verified code

What makes code safe to run can be read off the code. It has to be cut into instructions that end
with a halt, operands have to name what is there, jumps have to lead to instructions, and whichever
way an instruction is come to, the height of the stack has to be the same.

## Main definitions

* `Chunk.instruction?`: the instruction at an offset.
* `Chunk.Reads`: the instructions that code is cut into.
* `OpCode.takes`, `OpCode.heightAfter`: what an instruction does to the height of the stack.
* `Instruction.targets`: where an instruction may lead.
* `Chunk.Verified`: code that is safe to run.
-/

namespace Lox

/-! ### Reading code -/

namespace Chunk

/-- The operand at an offset, if the code has all of its bytes. -/
def operand? (c : Chunk) (offset : Nat) : OperandKind → Option Nat
  | .none => some 0
  | .constant | .slot => c.code[offset]?.map UInt8.toNat
  | .forward | .backward => c.read16? offset

/-- The instruction at an offset, if the code has one there with all of its operand. -/
def instruction? (c : Chunk) (offset : Nat) : Option Instruction := do
  let byte ← c.code[offset]?
  let op ← OpCode.ofByte? byte
  let operand ← c.operand? (offset + 1) op.operand
  return ⟨op, operand⟩

/-- Reading one instruction after the other from an offset, these are read, each given with its
offset, and then the code is at its end. -/
inductive Reads (c : Chunk) : Nat → List (Nat × Instruction) → Prop where
  | done : Reads c c.size []
  | next {offset : Nat} {i : Instruction} {rest : List (Nat × Instruction)}
      (here : c.instruction? offset = some i) (after : Reads c (offset + i.size) rest) :
      Reads c offset ((offset, i) :: rest)

end Chunk

/-! ### Heights -/

namespace OpCode

/-- The number of values that an instruction pops or looks at on top of the stack. -/
def takes : OpCode → Nat
  | constant | nil | true | false | getLocal | getGlobal | jump | loop | halt => 0
  | pop | setLocal | setGlobal | defineGlobal | not | negate | print | jumpIfFalse => 1
  | equal | greater | less | add | subtract | multiply | divide => 2

/-- The height of the stack after an instruction, given that before. -/
def heightAfter (height : Nat) : OpCode → Nat
  | constant | nil | true | false | getLocal | getGlobal => height + 1
  | pop | defineGlobal | print => height - 1
  | equal | greater | less | add | subtract | multiply | divide => height - 1
  | setLocal | setGlobal | not | negate | jump | jumpIfFalse | loop | halt => height

/-- Whether the operand has to be the index of a name. -/
def isGlobal : OpCode → Bool
  | getGlobal | defineGlobal | setGlobal => Bool.true
  | _ => Bool.false

end OpCode

/-- The offsets that an instruction at an offset may lead to. -/
def Instruction.targets (i : Instruction) (offset : Nat) : List Nat :=
  let next := offset + i.size
  match i.op with
  | .jump => [next + i.operand]
  | .jumpIfFalse => [next, next + i.operand]
  | .loop => [next - i.operand]
  | .halt => []
  | _ => [next]

/-! ### Verified code -/

/-- An instruction is in order at its offset, among the instructions listed and under an assignment
of heights to offsets. -/
structure Chunk.Safe (c : Chunk) (listed : List (Nat × Instruction)) (height : Nat → Nat)
    (offset : Nat) (i : Instruction) : Prop where
  constant : i.op.operand = .constant → i.operand < c.constants.size
  name : i.op.isGlobal → ∃ symbol, c.constants[i.operand]? = some (.string symbol)
  slot : i.op.operand = .slot → i.operand < height offset
  takes : i.op.takes ≤ height offset
  back : i.op = .loop → i.operand ≤ offset + i.size
  target : ∀ t ∈ i.targets offset,
    (∃ next, (t, next) ∈ listed) ∧ height t = i.op.heightAfter (height offset)
  halt : i.op = .halt → height offset = 0

/-- The code is cut into instructions of which the last and only the last is a halt, and under some
assignment of heights, 0 at the start, each of them is in order. -/
def Chunk.Verified (c : Chunk) : Prop :=
  ∃ (code : List (Nat × Instruction)) (last : Nat) (height : Nat → Nat),
    c.Reads 0 (code ++ [(last, ⟨.halt, 0⟩)]) ∧ (∀ x ∈ code, x.2.op ≠ .halt) ∧ height 0 = 0 ∧
      ∀ x ∈ code ++ [(last, ⟨.halt, 0⟩)], c.Safe (code ++ [(last, ⟨.halt, 0⟩)]) height x.1 x.2

end Lox
