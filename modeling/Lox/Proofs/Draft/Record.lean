import Lox.Proofs.Bytecode.Reading
import Lox.Proofs.Draft.Coherence
import Lox.Proofs.Draft.Writing

/-!
# The record and the code

A run of operations keeps a record of the instructions that name a constant. Those on record are just
those that are read back from the code, in the same order, with their offsets and operands: an
operation writes a whole instruction behind the others or none, and a patch changes a jump.

## Main definitions

* `Chunk.Names`: the instructions of a chunk that name a constant.
* `Draft.Recorded`: the code with what is on record of it.

## Main results

* `Draft.Operation.cases_code`: what an operation does to the code.
* `Draft.Runs.names`: the instructions on record are those of the code.
-/

namespace Lox

/-- Whether an instruction names a constant. -/
def Instruction.namesConstant (i : Instruction) : Bool := i.op.operand == .constant

/-- These are the instructions of the chunk that name a constant, with their offsets. -/
def Chunk.Names (c : Chunk) (named : List (Nat × Instruction)) : Prop :=
  ∃ listed, c.Reads 0 listed ∧ listed.filter (·.2.namesConstant) = named

namespace Draft

variable {e d d' : Draft} {past marks new : List Mark} {code : List Instruction} {i : Instruction}

/-! ### Operations -/

/-- What goes on record when an instruction is written. -/
structure Records (d : Draft) (i : Instruction) (new : List Mark) : Prop where
  encodable : i.Encodable
  instructions : new.filterMap Mark.instruction? = [(d.size, i)].filter (·.2.namesConstant)
  jumps : ∀ placeholder, .jump placeholder ∈ new →
    i.op.operand = .forward ∧ placeholder = d.size + 1

/-- An instruction that names no constant and awaits no patch. -/
theorem records_nil (hi : i.Encodable) (hop : i.op.operand ≠ .constant) : d.Records i [] where
  encodable := hi
  instructions := by simp [Instruction.namesConstant, hop]
  jumps _ hmem := absurd hmem List.not_mem_nil

theorem records_jump {op : OpCode} (hop : op.operand = .forward) :
    d.Records ⟨op, maxDistance⟩ [.jump (d.emitJump op).1] where
  encodable := by simp [Instruction.Encodable, hop, maxDistance]
  instructions := by simp [Instruction.namesConstant, hop, Mark.instruction?]
  jumps placeholder hmem := by
    rw [Mark.jump.inj (List.mem_singleton.mp hmem)]
    exact ⟨hop, by simp [emitJump, emitOp, emitByte, Chunk.write, size, Chunk.size]⟩

/-- An instruction that names a constant. -/
theorem records_index {op : OpCode} {operand : UInt8} {mark : Mark} (hop : op.operand = .constant)
    (hmark : mark.instruction? = some (d.size, ⟨op, operand.toNat⟩)) :
    d.Records ⟨op, operand.toNat⟩ [mark] where
  encodable := by simpa [Instruction.Encodable, hop] using operand.toNat_lt
  instructions := by simp [Instruction.namesConstant, hop, hmark]
  jumps placeholder hmem := by
    rw [← List.mem_singleton.mp hmem] at hmark
    cases hmark

theorem code_emit (d : Draft) (i : Instruction) : (d.emit i).chunk.code = d.chunk.code ++ i.bytes := by
  rw [emit_eq]

/-- **What an operation does to the code**: nothing, or it writes an instruction, or it patches a
jump. -/
theorem Operation.cases_code (h : Operation past d new d') :
    (d'.chunk.code = d.chunk.code ∧ new.filterMap Mark.instruction? = [] ∧
      ∀ placeholder, .jump placeholder ∉ new) ∨
    (∃ i : Instruction, d'.chunk.code = d.chunk.code ++ i.bytes ∧ d.Records i new) ∨
    ∃ placeholder distance, .jump placeholder ∈ past ∧ distance ≤ maxDistance ∧ new = [] ∧
      d'.chunk.code = (d.chunk.patch placeholder distance).code := by
  cases h with
  | report _ token problem =>
    obtain ⟨diagnostics, heq, -⟩ := exists_report_eq d token problem
    rw [heq]
    exact .inl ⟨rfl, rfl, fun _ => List.not_mem_nil⟩
  | advance =>
    obtain ⟨rest, panicking, diagnostics, heq, -⟩ := exists_advance_eq d
    rw [heq]
    exact .inl ⟨rfl, rfl, fun _ => List.not_mem_nil⟩
  | calm | stall | scope => exact .inl ⟨rfl, rfl, fun _ => List.not_mem_nil⟩
  | plain _ hop =>
    rw [emitOp_eq hop]
    exact .inr (.inl ⟨_, d.code_emit _,
      records_nil (by simp [Instruction.Encodable, hop]) (by simp [hop])⟩)
  | slot _ slot hop =>
    rw [emitOpByte_eq slot (.inr hop)]
    exact .inr (.inl ⟨_, d.code_emit _,
      records_nil (by simpa [Instruction.Encodable, hop] using slot.toNat_lt) (by simp [hop])⟩)
  | loop _ target =>
    have hrecords {distance : Nat} (hfits : distance ≤ maxDistance) :
        d.Records ⟨.loop, distance⟩ [] :=
      records_nil hfits (show OpCode.loop.operand ≠ .constant by decide)
    obtain ⟨distance, hfits, heq⟩ | heq := d.emitLoop_eq target <;> rw [heq]
    · exact .inr (.inl ⟨_, d.code_emit _, hrecords hfits⟩)
    · refine .inr (.inl ⟨⟨.loop, maxDistance⟩, ?_, hrecords (Nat.le_refl _)⟩)
      obtain ⟨diagnostics, hreport, -⟩ := exists_report_eq d d.previous .loopTooLarge
      rw [code_emit, failAtPrevious, hreport]
  | jump _ hop =>
    rw [emitJump_eq hop]
    exact .inr (.inl ⟨_, d.code_emit _, emitJump_eq hop ▸ records_jump hop⟩)
  | patch _ hjump hfits => exact .inr (.inr ⟨_, _, hjump, hfits, rfl, rfl⟩)
  | number _ value =>
    let index := (d.addConstant (.number value)).1.getD 0
    refine .inr (.inl ⟨⟨.constant, index.toNat⟩, ?_, records_index rfl rfl⟩)
    obtain ⟨constants, panicking, diagnostics, heq⟩ := exists_addConstant_eq d (.number value)
    rw [emitConstant]
    simp only
    rw [emitOpByte_eq _ (.inl rfl), code_emit, heq]
  | use u =>
    obtain ⟨constants, panicking, diagnostics, strings, interner, heq⟩ :=
      exists_stringConstant_eq u.draft u.text
    rw [Use.after, heq]
    exact .inl ⟨rfl, rfl, fun _ => by simp⟩
  | name _ huse hop =>
    have hconstant := Role.operand_of_mem _ hop
    rw [emitOpByte_eq _ (.inl hconstant)]
    exact .inr (.inl ⟨_, d.code_emit _, records_index hconstant rfl⟩)

/-! ### Runs -/

/-- The code, and what is on record of it. -/
structure Recorded (d : Draft) (marks : List Mark) (code : List Instruction) : Prop where
  bytes : d.chunk.code.toList = codeBytes code
  encodable : ∀ i ∈ code, i.Encodable
  jumps : ∀ placeholder, .jump placeholder ∈ marks → HasPlaceholder (shape code) placeholder
  instructions : (withOffsets 0 code).filter (·.2.namesConstant) = marks.filterMap Mark.instruction?

theorem Recorded.size_eq (h : d.Recorded marks code) : d.size = codeSize code := by
  rw [size, Chunk.size, ← Array.length_toList, h.bytes, length_codeBytes]

/-- One more instruction. -/
theorem Recorded.write (h : d.Recorded marks code) (hcode : d'.chunk.code = d.chunk.code ++ i.bytes)
    (hi : d.Records i new) : d'.Recorded (marks ++ new) (code ++ [i]) where
  bytes := by simp [hcode, h.bytes]
  encodable j hj := by
    obtain hj | hj := List.mem_append.mp hj
    · exact h.encodable j hj
    · obtain rfl := List.mem_singleton.mp hj
      exact hi.encodable
  jumps placeholder hmem := by
    rw [shape_append]
    obtain hmem | hmem := List.mem_append.mp hmem
    · exact (h.jumps placeholder hmem).append _
    · obtain ⟨hop, rfl⟩ := hi.jumps placeholder hmem
      exact ⟨shape code, ⟨i.op, 0⟩, [], rfl, hop, by rw [codeSize_shape, h.size_eq]⟩
  instructions := by
    rw [withOffsets_append, List.filter_append, h.instructions, List.filterMap_append, hi.instructions,
      h.size_eq, Nat.zero_add]
    rfl

/-- A patch changes a jump, which names no constant. -/
theorem Recorded.patch (h : d.Recorded marks code) {placeholder distance : Nat}
    (hjump : .jump placeholder ∈ marks) (hfits : distance ≤ maxDistance)
    (hcode : d'.chunk.code = (d.chunk.patch placeholder distance).code) :
    ∃ code', d'.Recorded marks code' := by
  obtain ⟨before, op, operand, after, rfl, hop, rfl⟩ := (h.jumps placeholder hjump).exists_jump
  refine ⟨before ++ ⟨op, distance⟩ :: after, ?_, ?_, ?_, ?_⟩
  · rw [hcode]
    exact Chunk.codeBytes_patch hop h.bytes distance
  · intro j hj
    obtain hj | hj := List.mem_append.mp hj
    · exact h.encodable j (List.mem_append_left _ hj)
    · obtain rfl | hj := List.mem_cons.mp hj
      · simpa [Instruction.Encodable, hop, maxDistance] using hfits
      · exact h.encodable j (List.mem_append_right _ (List.mem_cons_of_mem _ hj))
  · simpa [shape] using h.jumps
  · rw [← h.instructions]
    simp [withOffsets_append, withOffsets, Instruction.namesConstant, Instruction.size, hop]

/-- An operation goes on record with what it writes. -/
theorem Operation.recorded (h : Operation marks d new d') (hd : d.Recorded marks code) :
    ∃ code', d'.Recorded (marks ++ new) code' := by
  obtain ⟨hcode, hnone, hjumps⟩ | ⟨i, hcode, hi⟩ | ⟨placeholder, distance, hjump, hfits, rfl, hcode⟩ :=
    h.cases_code
  · refine ⟨code, hcode ▸ hd.bytes, hd.encodable, fun placeholder hmem => ?_, ?_⟩
    · exact hd.jumps placeholder ((List.mem_append.mp hmem).resolve_right (hjumps placeholder))
    · rw [List.filterMap_append, hnone, List.append_nil, hd.instructions]
  · exact ⟨_, hd.write hcode hi⟩
  · rw [List.append_nil]
    exact hd.patch hjump hfits hcode

theorem Runs.recorded (h : Runs past e marks d) (he : e.Recorded past code) :
    ∃ code', d.Recorded marks code' := by
  induction h with
  | refl => exact ⟨code, he⟩
  | tail _ hoperation ih =>
    obtain ⟨code, hcode⟩ := ih
    exact hoperation.recorded hcode

/-- **The instructions on record** are those of the code that name a constant. -/
theorem Runs.names (h : Runs [] e marks d) (he : e.chunk.code = #[]) :
    d.chunk.Names (marks.filterMap Mark.instruction?) := by
  have hstart : e.Recorded [] [] :=
    ⟨by simp [he], fun _ hi => absurd hi List.not_mem_nil,
      fun _ hmem => absurd hmem List.not_mem_nil, rfl⟩
  obtain ⟨code, hcode⟩ := h.recorded hstart
  have hbytes : d.chunk.code.toList = [] ++ codeBytes code := hcode.bytes
  exact ⟨_, Chunk.reads_codeBytes hcode.encodable hbytes, hcode.instructions⟩

end Draft

end Lox
