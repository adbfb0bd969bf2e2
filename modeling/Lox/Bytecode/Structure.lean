import Lox.Bytecode.Instruction

/-!
# The structure of chunks

A chunk can be shown and measured before it is known to be safe to run, also one that comes with
diagnostics. For that its code has to be cut into whole instructions, the constants that these name
have to be there, and the line table has to say for each byte which line of the source it is from.

## Main definitions

* `Chunk.ConsistsOf`: the instructions of a chunk with their lines.
* `Chunk.Sound`: what holds of the chunk of any source.
-/

namespace Lox

namespace Chunk

/-- The code is that of these instructions, all bytes of each of which are on its line. -/
structure ConsistsOf (c : Chunk) (code : List (Instruction × Nat)) : Prop where
  bytes : c.code.toList = codeBytes (code.map Prod.fst)
  lines : c.lines.toList = code.flatMap fun i => List.replicate i.1.size i.2

variable {c : Chunk} {code : List (Instruction × Nat)}

/-- There is a line for each byte. -/
theorem ConsistsOf.size_lines (h : c.ConsistsOf code) : c.lines.size = c.code.size := by
  rw [← Array.length_toList, ← Array.length_toList, h.lines, h.bytes, length_codeBytes]
  clear h
  induction code with
  | nil => rfl
  | cons i code ih =>
    rw [List.flatMap_cons, List.length_append, List.length_replicate, ih]
    rfl

/-- The lines are those of the instructions. -/
theorem ConsistsOf.mem_lines (h : c.ConsistsOf code) {line : Nat} (hline : line ∈ c.lines.toList) :
    line ∈ code.map Prod.snd := by
  rw [h.lines, List.mem_flatMap] at hline
  obtain ⟨i, hi, hline⟩ := hline
  exact List.mem_map.mpr ⟨i, hi, (List.eq_of_mem_replicate hline).symm⟩

/-- If the instructions are in the order of their lines, then so is the line table. -/
theorem ConsistsOf.pairwise_lines (h : c.ConsistsOf code)
    (hcode : (code.map Prod.snd).Pairwise (· ≤ ·)) : c.lines.toList.Pairwise (· ≤ ·) := by
  rw [h.lines, List.pairwise_flatMap]
  refine ⟨fun i _ => List.pairwise_replicate.mpr (.inr (Nat.le_refl _)), (List.pairwise_map.mp hcode).imp fun hle => ?_⟩
  intro line hline line' hline'
  rw [List.eq_of_mem_replicate hline, List.eq_of_mem_replicate hline']
  exact hle

/-- The chunk is that of whole instructions up to a halt, names no constant that it does not have,
and has a line for each byte, all from 1 to `lines` and in order. -/
structure Sound (c : Chunk) (lines : Nat) : Prop where
  constants : c.constants.size ≤ 256
  instructions : ∃ code line, c.ConsistsOf (code ++ [(⟨.halt, 0⟩, line)]) ∧
    ∀ i ∈ code, i.1.op.operand = .constant → i.1.operand < c.constants.size
  size_lines : c.lines.size = c.code.size
  sorted : c.lines.toList.Pairwise (· ≤ ·)
  bounds : ∀ line ∈ c.lines.toList, 1 ≤ line ∧ line ≤ lines

end Chunk

end Lox
