import Lox.Bytecode.Chunk

/-!
# Code as instructions

An instruction with its operand as a number, and the bytes it is written in. Code is a list of
instructions; the shapes that control flow is laid out in are functions on code.

Jumps go by distances from the end of the jump, in bytes. A distance is any number here; whether it
fits into its two bytes is asked separately, by `JumpsFit`.

## Main definitions

* `Instruction`: an opcode with its operand, with `Instruction.bytes` and `Instruction.size`.
* `codeSize`, `codeBytes`: the size and the bytes of code.
* `ifTruthy`, `ifFalsey`, `choice`, `repeating`: the shapes of control flow.
* `JumpsFit`: whether all distances fit.
-/

namespace Lox

/-- An instruction with its operand, a number that is 0 if there is none. -/
structure Instruction where
  op : OpCode
  operand : Nat := 0
  deriving DecidableEq, Repr, Inhabited

/-- The number of bytes of an instruction. -/
def Instruction.size (i : Instruction) : Nat := i.op.size

/-- The bytes of an instruction. -/
def Instruction.bytes (i : Instruction) : List UInt8 :=
  i.op.toByte :: match i.op.operand with
    | .none => []
    | .constant | .slot => [UInt8.ofNat i.operand]
    | .forward | .backward => [Chunk.highByte i.operand, Chunk.lowByte i.operand]

/-- The number of bytes of code. -/
def codeSize : List Instruction → Nat
  | [] => 0
  | i :: code => i.size + codeSize code

/-- The bytes of code. -/
def codeBytes (code : List Instruction) : List UInt8 := code.flatMap Instruction.bytes

/-- Whether an instruction is a jump, so that its operand is a distance. -/
def Instruction.isJump (i : Instruction) : Bool := i.op.operand.size == 2

/-- Every distance fits into two bytes. -/
def JumpsFit (code : List Instruction) : Prop :=
  ∀ i ∈ code, i.isJump → i.operand ≤ 65535

/-! ### Pieces of code -/

section Pieces

variable (i : Instruction) (xs ys : List Instruction)

@[simp] theorem codeSize_nil : codeSize [] = 0 := rfl

@[simp] theorem codeSize_cons : codeSize (i :: xs) = i.size + codeSize xs := rfl

@[simp] theorem codeSize_append : codeSize (xs ++ ys) = codeSize xs + codeSize ys := by
  induction xs with
  | nil => exact (Nat.zero_add _).symm
  | cons i xs ih => rw [List.cons_append, codeSize_cons, ih, codeSize_cons, Nat.add_assoc]

@[simp] theorem codeBytes_nil : codeBytes [] = [] := rfl

@[simp] theorem codeBytes_cons : codeBytes (i :: xs) = i.bytes ++ codeBytes xs := by
  simp [codeBytes]

@[simp] theorem codeBytes_append : codeBytes (xs ++ ys) = codeBytes xs ++ codeBytes ys := by
  simp [codeBytes]

/-- An instruction has as many bytes as its size says. -/
@[simp] theorem Instruction.length_bytes : i.bytes.length = i.size := by
  obtain ⟨op, operand⟩ := i
  cases op <;> rfl

@[simp] theorem length_codeBytes : (codeBytes xs).length = codeSize xs := by
  induction xs with
  | nil => rfl
  | cons i xs ih => rw [codeBytes_cons, List.length_append, ih, i.length_bytes, codeSize_cons]

@[simp] theorem jumpsFit_nil : JumpsFit [] := nofun

@[simp] theorem jumpsFit_cons :
    JumpsFit (i :: xs) ↔ (i.isJump → i.operand ≤ 65535) ∧ JumpsFit xs := by
  simp [JumpsFit]

@[simp] theorem jumpsFit_append : JumpsFit (xs ++ ys) ↔ JumpsFit xs ∧ JumpsFit ys := by
  simp [JumpsFit, or_imp, forall_and]

end Pieces

/-! ### The shapes of control flow

In these the value that decides is on top of the stack. -/

/-- Replaces the value by that of `code` if it is truthy. -/
def ifTruthy (code : List Instruction) : List Instruction :=
  ⟨.jumpIfFalse, 1 + codeSize code⟩ :: ⟨.pop, 0⟩ :: code

/-- Replaces the value by that of `code` if it is falsey. -/
def ifFalsey (code : List Instruction) : List Instruction :=
  ⟨.jumpIfFalse, 3⟩ :: ⟨.jump, 1 + codeSize code⟩ :: ⟨.pop, 0⟩ :: code

/-- Drops the value and goes on with `yes` if it is truthy, and with `no` if not. -/
def choice (yes no : List Instruction) : List Instruction :=
  ⟨.jumpIfFalse, 1 + codeSize yes + 3⟩ :: ⟨.pop, 0⟩ :: yes ++
    ⟨.jump, 1 + codeSize no⟩ :: ⟨.pop, 0⟩ :: no

/-- The start of a loop: if there is a condition, leaves the loop by a jump if it does not hold. -/
def loopHead (exit : Nat) : Option (List Instruction) → List Instruction
  | some condition => condition ++ [⟨.jumpIfFalse, exit⟩, ⟨.pop, 0⟩]
  | none => []

/-- The number of bytes of the start of a loop. -/
def loopHeadSize : Option (List Instruction) → Nat
  | some condition => codeSize condition + 4
  | none => 0

/-- What stands between the start of a loop and its body: if there is an increment, a jump over it,
and after it a jump back to the start, which stands `head` bytes before. -/
def loopStep (head : Nat) : Option (List Instruction) → List Instruction
  | some increment =>
    ⟨.jump, codeSize increment + 4⟩ :: increment ++
      [⟨.pop, 0⟩, ⟨.loop, head + codeSize increment + 7⟩]
  | none => []

/-- The number of bytes from the place that the body jumps back to up to the body. -/
def loopBack (head : Nat) : Option (List Instruction) → Nat
  | some increment => codeSize increment + 4
  | none => head

/-- Where the jump out of a loop leads to. -/
def loopExit : Option (List Instruction) → List Instruction
  | some _ => [⟨.pop, 0⟩]
  | none => []

/-- A loop. The body is followed by the increment, if there is one, although it stands after it. -/
def repeating (condition increment : Option (List Instruction)) (body : List Instruction) :
    List Instruction :=
  let head := loopHeadSize condition
  let step := loopStep head increment
  loopHead (1 + codeSize step + codeSize body + 3) condition ++ step ++ body ++
    ⟨.loop, loopBack head increment + codeSize body + 3⟩ :: loopExit condition

end Lox
