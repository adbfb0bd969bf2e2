import Lox.Bytecode.OpCode
import Lox.Value

/-!
# Chunks

A chunk is a program in bytes: its code, the source line of each byte, and its constants. A jump is
written before its distance is known, with a placeholder that is patched later.

## Main definitions

* `Chunk`: code, lines and constants.
* `Chunk.write`, `Chunk.addConstant`, `Chunk.patch?`: the ways a chunk changes.
* `Chunk.read16?`: reads a distance.
* `PatchError`: a patch that does not fit, with its message.
-/

namespace Lox

/-- A compiled program. -/
structure Chunk where
  code : Array UInt8
  /-- The source line of each byte of the code. -/
  lines : Array Nat
  constants : Array Value
  deriving DecidableEq, Repr

/-- A patch of two bytes at an offset that a code of this size does not have. -/
structure PatchError where
  offset : Nat
  size : Nat
  deriving DecidableEq, Repr

/-- The sentence about a patch that does not fit. -/
def PatchError.message (e : PatchError) : String :=
  "cannot patch 2 bytes at offset " ++ toString e.offset ++ " of a " ++ toString e.size ++
    "-byte chunk"

namespace Chunk

/-- A chunk without code. -/
def empty : Chunk := ⟨#[], #[], #[]⟩

instance : Inhabited Chunk := ⟨empty⟩

/-- The number of bytes of the code. -/
def size (c : Chunk) : Nat := c.code.size

/-- Appends a byte that belongs to a source line. -/
def write (c : Chunk) (byte : UInt8) (line : Nat) : Chunk :=
  { c with code := c.code.push byte, lines := c.lines.push line }

/-- Appends an opcode that belongs to a source line. -/
def writeOp (c : Chunk) (op : OpCode) (line : Nat) : Chunk := c.write op.toByte line

/-- Appends a constant, whether or not there is an equal one. Its index is the number of constants
before. -/
def addConstant (c : Chunk) (value : Value) : Chunk :=
  { c with constants := c.constants.push value }

/-- The source line of the byte at an offset. -/
def line? (c : Chunk) (offset : Nat) : Option Nat := c.lines[offset]?

/-- The high byte of a distance. -/
def highByte (distance : Nat) : UInt8 := UInt8.ofNat (distance / 256)

/-- The low byte of a distance. -/
def lowByte (distance : Nat) : UInt8 := UInt8.ofNat distance

/-- Overwrites the two bytes at an offset with a distance, high byte first. Bytes that the code
does not have are not written. -/
def patch (c : Chunk) (offset distance : Nat) : Chunk :=
  { c with
    code := (c.code.setIfInBounds offset (highByte distance)).setIfInBounds (offset + 1)
      (lowByte distance) }

/-- Only the two bytes change. -/
theorem toList_code_patch {c : Chunk} {before after : List UInt8} {high low : UInt8}
    (h : c.code.toList = before ++ high :: low :: after) (distance : Nat) :
    (c.patch before.length distance).code.toList =
      before ++ highByte distance :: lowByte distance :: after := by
  rw [patch, Array.toList_setIfInBounds, Array.toList_setIfInBounds, h]
  simp

/-- Overwrites the two bytes at an offset, if the code has them. -/
def patch? (c : Chunk) (offset distance : Nat) : Except PatchError Chunk :=
  if offset + 2 ≤ c.size then .ok (c.patch offset distance) else .error ⟨offset, c.size⟩

/-- The distance in the two bytes at an offset, if the code has them. -/
def read16? (c : Chunk) (offset : Nat) : Option Nat :=
  match c.code[offset]?, c.code[offset + 1]? with
  | some high, some low => some (high.toNat * 256 + low.toNat)
  | _, _ => none

end Chunk

end Lox
