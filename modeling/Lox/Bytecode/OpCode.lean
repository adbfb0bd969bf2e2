/-!
# Instructions

An instruction is one byte, its opcode, followed by the bytes of its operand. What the operand is
decides how many bytes it has and how it is shown.

## Main definitions

* `OpCode`: the instructions, in the order of their bytes.
* `OperandKind`: what follows an opcode, with `OperandKind.size`.
* `OpCode.toByte`, `OpCode.ofByte?`: the encoding.
-/

namespace Lox

/-- What follows an opcode. -/
inductive OperandKind where
  /-- Nothing. -/
  | none
  /-- One byte: an index into the constant pool. -/
  | constant
  /-- One byte: a slot of the stack. -/
  | slot
  /-- Two bytes, high byte first: a distance forward from the end of the instruction. -/
  | forward
  /-- Two bytes, high byte first: a distance backward from the end of the instruction. -/
  | backward
  deriving DecidableEq, Repr, Inhabited

/-- The number of bytes of an operand. -/
def OperandKind.size : OperandKind → Nat
  | none => 0
  | constant => 1
  | slot => 1
  | forward => 2
  | backward => 2

/-- The instructions. -/
inductive OpCode where
  /-- Pushes an entry of the constant pool. -/
  | constant
  | nil
  | true
  | false
  | pop
  | getLocal
  | setLocal
  | getGlobal
  | defineGlobal
  | setGlobal
  | equal
  | greater
  | less
  | add
  | subtract
  | multiply
  | divide
  | not
  | negate
  | print
  | jump
  /-- Jumps if the top of the stack is falsey, and leaves it there. -/
  | jumpIfFalse
  /-- Jumps backward. -/
  | loop
  | halt
  deriving DecidableEq, Repr, Inhabited

namespace OpCode

/-- The instructions in the order of their bytes. -/
def all : List OpCode :=
  [constant, nil, true, false, pop, getLocal, setLocal, getGlobal, defineGlobal, setGlobal, equal,
   greater, less, add, subtract, multiply, divide, not, negate, print, jump, jumpIfFalse, loop,
   halt]

/-- The byte of an instruction. -/
def toByte (op : OpCode) : UInt8 := UInt8.ofNat op.ctorIdx

/-- The instruction of a byte, if there is one. -/
def ofByte? (byte : UInt8) : Option OpCode := all[byte.toNat]?

/-- The name of an instruction in listings. -/
def mnemonic : OpCode → String
  | constant => "OP_CONSTANT"
  | nil => "OP_NIL"
  | true => "OP_TRUE"
  | false => "OP_FALSE"
  | pop => "OP_POP"
  | getLocal => "OP_GET_LOCAL"
  | setLocal => "OP_SET_LOCAL"
  | getGlobal => "OP_GET_GLOBAL"
  | defineGlobal => "OP_DEFINE_GLOBAL"
  | setGlobal => "OP_SET_GLOBAL"
  | equal => "OP_EQUAL"
  | greater => "OP_GREATER"
  | less => "OP_LESS"
  | add => "OP_ADD"
  | subtract => "OP_SUBTRACT"
  | multiply => "OP_MULTIPLY"
  | divide => "OP_DIVIDE"
  | not => "OP_NOT"
  | negate => "OP_NEGATE"
  | print => "OP_PRINT"
  | jump => "OP_JUMP"
  | jumpIfFalse => "OP_JUMP_IF_FALSE"
  | loop => "OP_LOOP"
  | halt => "OP_RETURN"

/-- The operand of an instruction. -/
def operand : OpCode → OperandKind
  | constant | getGlobal | defineGlobal | setGlobal => .constant
  | getLocal | setLocal => .slot
  | jump | jumpIfFalse => .forward
  | loop => .backward
  | _ => .none

/-- The number of bytes of an instruction. -/
def size (op : OpCode) : Nat := 1 + op.operand.size

/-- An instruction is read back from its byte. -/
@[simp] theorem ofByte?_toByte (op : OpCode) : ofByte? op.toByte = some op := by
  cases op <;> rfl

/-- A byte that is read as an instruction is that instruction's byte. -/
theorem toByte_of_ofByte? {byte : UInt8} {op : OpCode} (h : ofByte? byte = some op) :
    op.toByte = byte := by
  obtain ⟨hlt, hget⟩ := List.getElem?_eq_some_iff.mp h
  have hall : ∀ (i : Nat) (hi : i < all.length), (all[i]).toByte = UInt8.ofNat i := by decide
  rw [← hget, hall byte.toNat hlt]
  simp

end OpCode

/-- The sentence about a byte that is no instruction. -/
def unknownOpCode (byte : UInt8) : String := "unknown opcode " ++ toString byte.toNat

end Lox
