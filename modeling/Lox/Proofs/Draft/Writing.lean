import Lox.Bytecode.Instruction
import Lox.Proofs.Draft.Invariants

/-!
# Writing instructions

A draft writes whole instructions only, on the line of the token just passed. A jump is written with
a placeholder for its distance. What is patched later is a placeholder, so that a patch changes the
operand of a jump and nothing else.

## Main definitions

* `Draft.emit`: writes an instruction.
* `HasPlaceholder`: an offset is that of the placeholder of a jump.
* `shape`: code without its operands, which a patch does not change.

## Main results

* `Draft.emitOp_eq`, `Draft.emitJump_eq` and their kin: what is written is instructions.
* `Chunk.codeBytes_patch`: what a patch changes.
-/

namespace Lox

namespace Draft

variable {d : Draft} {op : OpCode}

/-- Writes an instruction. -/
def emit (d : Draft) (i : Instruction) : Draft := i.bytes.foldl emitByte d

theorem foldl_emitByte (bytes : List UInt8) (d : Draft) :
    bytes.foldl emitByte d = { d with chunk := { d.chunk with
      code := d.chunk.code ++ bytes
      lines := d.chunk.lines ++ List.replicate bytes.length d.previous.line } } := by
  induction bytes generalizing d with
  | nil => simp
  | cons byte bytes ih =>
    rw [List.foldl_cons, ih]
    simp [emitByte, Chunk.write, List.replicate_succ]

theorem emit_eq (d : Draft) (i : Instruction) :
    d.emit i = { d with chunk := { d.chunk with
      code := d.chunk.code ++ i.bytes
      lines := d.chunk.lines ++ List.replicate i.size d.previous.line } } := by
  rw [emit, foldl_emitByte, i.length_bytes]

theorem emitOp_eq (h : op.operand = .none) : d.emitOp op = d.emit ⟨op, 0⟩ := by
  simp only [emit, Instruction.bytes, h]
  rfl

theorem emitOpByte_eq (byte : UInt8) (h : op.operand = .constant ∨ op.operand = .slot) :
    d.emitOpByte op byte = d.emit ⟨op, byte.toNat⟩ := by
  obtain h | h := h <;> simp only [emit, Instruction.bytes, h, UInt8.ofNat_toNat] <;> rfl

/-- The placeholder is a distance like any other. -/
theorem emitJump_eq (h : op.operand = .forward) :
    d.emitJump op = ((d.emit ⟨op, maxDistance⟩).size - 2, d.emit ⟨op, maxDistance⟩) := by
  have hemit : d.emit ⟨op, maxDistance⟩ = ((d.emitOp op).emitByte 0xFF).emitByte 0xFF := by
    simp only [emit, Instruction.bytes, h]
    rfl
  rw [hemit]
  rfl

/-- A jump back that is too long is written all the same. -/
theorem emitLoop_eq (d : Draft) (target : Nat) :
    (∃ distance ≤ maxDistance, d.emitLoop target = d.emit ⟨.loop, distance⟩) ∨
      d.emitLoop target = (d.failAtPrevious .loopTooLarge).emit ⟨.loop, maxDistance⟩ := by
  rw [emitLoop]
  split
  · next hfits => exact .inl ⟨_, hfits, rfl⟩
  · refine .inr ?_
    rw [failAtPrevious, failAtPrevious, report, report]
    cases hpanic : d.panicking <;> simp [emit, emitOp, emitByte, Instruction.bytes, hpanic] <;> rfl

end Draft

/-! ### Placeholders -/

/-- The offset is that of the placeholder of a jump in the code. -/
def HasPlaceholder (code : List Instruction) (offset : Nat) : Prop :=
  ∃ before i after, code = before ++ i :: after ∧ i.op.operand = .forward ∧
    offset = codeSize before + 1

theorem HasPlaceholder.append {code : List Instruction} {offset : Nat}
    (h : HasPlaceholder code offset) (more : List Instruction) :
    HasPlaceholder (code ++ more) offset := by
  obtain ⟨before, i, after, rfl, hop, hoffset⟩ := h
  exact ⟨before, i, after ++ more, by simp, hop, hoffset⟩

/-- The instructions without their operands, which a patch does not change. -/
def shape (code : List Instruction) : List Instruction := code.map fun i => ⟨i.op, 0⟩

@[simp] theorem shape_append (code more : List Instruction) :
    shape (code ++ more) = shape code ++ shape more := List.map_append

@[simp] theorem codeSize_shape (code : List Instruction) : codeSize (shape code) = codeSize code := by
  induction code with
  | nil => rfl
  | cons i code ih =>
    rw [codeSize_cons, ← ih]
    rfl

/-- A jump whose placeholder the shape of code has. -/
theorem HasPlaceholder.exists_jump {code : List Instruction} {offset : Nat}
    (h : HasPlaceholder (shape code) offset) : ∃ before op operand after,
      code = before ++ ⟨op, operand⟩ :: after ∧ op.operand = .forward ∧
        offset = codeSize before + 1 := by
  obtain ⟨_, _, _, hshape, hop, rfl⟩ := h
  obtain ⟨before, rest, rfl, rfl, hrest⟩ := List.map_eq_append_iff.mp hshape
  obtain ⟨⟨op, operand⟩, after, rfl, rfl, rfl⟩ := List.map_eq_cons_iff.mp hrest
  exact ⟨before, op, operand, after, rfl, hop, congrArg (· + 1) (codeSize_shape before)⟩

/-- **A patch** of a placeholder changes the operand of its jump. -/
theorem Chunk.codeBytes_patch {c : Chunk} {before after : List Instruction} {op : OpCode}
    {operand : Nat} (hop : op.operand = .forward)
    (h : c.code.toList = codeBytes (before ++ ⟨op, operand⟩ :: after)) (distance : Nat) :
    (c.patch (codeSize before + 1) distance).code.toList =
      codeBytes (before ++ ⟨op, distance⟩ :: after) := by
  have hbytes : ∀ x, (⟨op, x⟩ : Instruction).bytes =
      [op.toByte, highByte x, lowByte x] := by
    intro x
    simp only [Instruction.bytes, hop]
  -- The opcode of the jump is the last byte in front of the patch.
  have hcode : c.code.toList = (codeBytes before ++ [op.toByte]) ++
      highByte operand :: lowByte operand :: codeBytes after := by
    rw [h]
    simp [hbytes]
  have hpatch := toList_code_patch hcode distance
  rw [List.length_append, length_codeBytes, List.length_singleton] at hpatch
  exact hpatch.trans (by simp [hbytes])

end Lox
