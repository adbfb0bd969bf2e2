import Lox.Bytecode.Chunk

/-!
# Listings

A listing shows a chunk as text, an instruction a line: the offset, the source line or a bar where
it is that of the byte before, the mnemonic and the operand. A constant is shown with its value
between quotes, a jump with the offset it starts from and the one it leads to.

Any bytes can be listed. A byte that is no instruction has a line of its own, and an instruction
whose operand is cut off by the end of the code is the last.

## Main definitions

* `Listing.row`: the text of the instruction at an offset, and the offset after it.
* `Listing.chunk`: the listing of a whole chunk under a name.
-/

namespace Lox

namespace Listing

/-- A text with a character repeated before it up to a width. -/
def padLeft (width : Nat) (fill : Char) (text : String) : String :=
  String.ofList (List.replicate (width - text.length) fill) ++ text

/-- A mnemonic with blanks after it up to the column of operands. -/
def operandColumn (mnemonic : String) : String :=
  mnemonic ++ String.ofList (List.replicate (16 - mnemonic.length) ' ') ++ " "

/-- A number in a column of four. -/
def column (n : Nat) : String := padLeft 4 ' ' (toString n)

/-- The offset of an instruction, and its source line. A bar stands for the line of the byte
before; a byte without a line is on line 0. -/
def position (c : Chunk) (offset : Nat) : String :=
  padLeft 4 '0' (toString offset) ++ " " ++
    if 0 < offset ∧ c.line? offset = c.line? (offset - 1) then "   | "
    else column ((c.line? offset).getD 0) ++ " "

/-- What follows the position of an instruction, and the offset after the instruction. -/
def instruction (interner : Interner) (c : Chunk) (op : OpCode) (offset : Nat) : String × Nat :=
  let truncated := (operandColumn op.mnemonic ++ "<truncated>\n", c.size)
  let distance (target : Nat → Int) : String × Nat :=
    match c.read16? (offset + 1) with
    | none => truncated
    | some d =>
      (operandColumn op.mnemonic ++ column offset ++ " -> " ++ toString (target d) ++ "\n",
        offset + 3)
  match op.operand with
  | .none => (op.mnemonic ++ "\n", offset + 1)
  | .slot =>
    match c.code[offset + 1]? with
    | none => truncated
    | some slot => (operandColumn op.mnemonic ++ column slot.toNat ++ "\n", offset + 2)
  | .constant =>
    match c.code[offset + 1]? with
    | none => truncated
    | some index =>
      let shown := match c.constants[index.toNat]? with
        | some value => "'" ++ value.display interner ++ "'"
        | none => "<missing>"
      (operandColumn op.mnemonic ++ column index.toNat ++ " " ++ shown ++ "\n", offset + 2)
  | .forward => distance fun d => (offset : Int) + 3 + d
  | .backward => distance fun d => (offset : Int) + 3 - d

/-- What follows the position at an offset, and the offset of the next line. -/
def content (interner : Interner) (c : Chunk) (offset : Nat) : String × Nat :=
  match c.code[offset]? with
  | none => ("<end of chunk>\n", max c.size (offset + 1))
  | some byte =>
    match OpCode.ofByte? byte with
    | none => ("Unknown opcode " ++ toString byte.toNat ++ "\n", offset + 1)
    | some op => instruction interner c op offset

/-- The line for an offset, and the offset of the next line. -/
def row (interner : Interner) (c : Chunk) (offset : Nat) : String × Nat :=
  let rest := content interner c offset
  (position c offset ++ rest.1, rest.2)

/-- Whatever its operand, an instruction ends after its opcode. -/
theorem lt_instruction_snd (interner : Interner) (c : Chunk) (op : OpCode) {offset : Nat}
    (hlt : offset < c.size) : offset < (instruction interner c op offset).2 := by
  rw [instruction]
  cases op.operand with
  | none => exact Nat.lt_succ_self offset
  | slot | constant => cases c.code[offset + 1]? <;> simp [hlt]
  | forward | backward => cases c.read16? (offset + 1) <;> simp [hlt]

theorem lt_content_snd (interner : Interner) (c : Chunk) (offset : Nat) :
    offset < (content interner c offset).2 := by
  rw [content]
  cases hbyte : c.code[offset]? with
  | none => exact Nat.lt_of_lt_of_le (Nat.lt_succ_self offset) (Nat.le_max_right ..)
  | some byte =>
    obtain ⟨hlt, -⟩ := Array.getElem?_eq_some_iff.mp hbyte
    simp only
    cases OpCode.ofByte? byte with
    | none => exact Nat.lt_succ_self offset
    | some op => exact lt_instruction_snd interner c op hlt

/-- Each line leads to a later offset. -/
theorem lt_row_snd (interner : Interner) (c : Chunk) (offset : Nat) :
    offset < (row interner c offset).2 := by
  rw [row]
  exact lt_content_snd interner c offset

/-- The lines from an offset on. -/
def rows (interner : Interner) (c : Chunk) (offset : Nat) (text : String) : String :=
  if offset < c.size then
    let next := row interner c offset
    rows interner c next.2 (text ++ next.1)
  else text
termination_by c.size - offset
decreasing_by
  have := lt_row_snd interner c offset
  omega

/-- The listing of a chunk under a name. -/
def chunk (interner : Interner) (c : Chunk) (name : String) : String :=
  rows interner c 0 ("== " ++ name ++ " ==\n")

end Listing

end Lox
