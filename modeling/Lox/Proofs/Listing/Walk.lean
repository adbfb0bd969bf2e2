import Lox.Bytecode.Listing
import Lox.Proofs.Bytecode.Reading
import Mathlib.Data.List.Chain

/-!
# The walk of a listing

A listing cuts code into instructions without running it, and a machine does so while running it.
Whatever the bytes are, both cut it alike: the offset of the next line is the offset that the machine
is at next, unless it jumps, and where it jumps to is the target shown.

The offsets of the lines start at zero, increase from line to line and end at the size of the code.
A byte that is no instruction has a line of its own. An instruction whose operand is cut off has the
last one.

## Main definitions

* `Listing.offsets`: the offsets that a listing has lines for.
* `Machine.Jumps`: whether a machine takes the jump of an instruction.

## Main results

* `Listing.rows_eq`: a listing has one line for each of its offsets.
* `Listing.isChain_offsets`: each line leads to the next, and the last one to the end of the code.
* `Machine.offset_step`: a machine that does not jump goes on behind the instruction.
* `Listing.decodes_as_executed`: listing and machine decode alike.
-/

namespace Lox

namespace Listing

variable {interner : Interner} {c : Chunk} {offset : Nat}

/-- The offsets that the lines from an offset on are for. -/
def offsets (interner : Interner) (c : Chunk) (offset : Nat) : List Nat :=
  if offset < c.size then offset :: offsets interner c (row interner c offset).2 else []
termination_by c.size - offset
decreasing_by
  have := lt_row_snd interner c offset
  omega

theorem offsets_of_lt (h : offset < c.size) :
    offsets interner c offset = offset :: offsets interner c (row interner c offset).2 := by
  rw [offsets, if_pos h]

theorem offsets_of_le (h : c.size ≤ offset) : offsets interner c offset = [] := by
  rw [offsets, if_neg (Nat.not_lt.mpr h)]

/-- The lines are those for the offsets, one after the other. -/
theorem rows_eq (interner : Interner) (c : Chunk) (offset : Nat) (text : String) :
    rows interner c offset text =
      text ++ String.join ((offsets interner c offset).map fun o => (row interner c o).1) := by
  induction offset, text using rows.induct interner c with
  | case1 offset text hlt next ih =>
    rw [rows, if_pos hlt, ih, offsets_of_lt hlt, List.map_cons, String.join_cons,
      String.append_assoc]
  | case2 offset text hend =>
    rw [rows, if_neg hend, offsets_of_le (Nat.not_lt.mp hend)]
    simp

/-! ### From line to line -/

/-- Behind an instruction that is all there comes the next line. -/
theorem row_snd_of_instruction? {i : Instruction} (h : c.instruction? offset = some i) :
    (row interner c offset).2 = offset + i.size := by
  obtain ⟨byte, hbyte, hop, hoperand⟩ := Machine.exists_of_instruction? h
  simp only [row, content, hbyte, hop, instruction, Instruction.size, OpCode.size]
  cases hkind : i.op.operand with
  | none => rfl
  | slot | constant =>
    rw [hkind] at hoperand
    obtain ⟨b, hb, -⟩ := Option.map_eq_some_iff.mp hoperand
    rw [hb]
    rfl
  | forward | backward =>
    rw [hkind] at hoperand
    have hread : c.read16? (offset + 1) = some i.operand := hoperand
    rw [hread]
    rfl

/-- A byte that is no instruction is passed alone. -/
theorem row_snd_of_unknown {byte : UInt8} (hbyte : c.code[offset]? = some byte)
    (hop : OpCode.ofByte? byte = none) : (row interner c offset).2 = offset + 1 := by
  simp only [row, content, hbyte, hop]

/-- Behind an instruction that is cut off comes the end. -/
theorem row_snd_of_truncated {byte : UInt8} {op : OpCode} (hbyte : c.code[offset]? = some byte)
    (hop : OpCode.ofByte? byte = some op) (hoperand : c.operand? (offset + 1) op.operand = none) :
    (row interner c offset).2 = c.size := by
  simp only [row, content, hbyte, hop, instruction]
  cases hkind : op.operand with
  | none => simp [hkind, Chunk.operand?] at hoperand
  | slot | constant =>
    rw [hkind] at hoperand
    rw [Option.map_eq_none_iff.mp hoperand]
  | forward | backward =>
    rw [hkind] at hoperand
    have hread : c.read16? (offset + 1) = none := hoperand
    rw [hread]

/-- An operand that is there is within the code. -/
theorem size_le_of_operand? {kind : OperandKind} {operand : Nat} (hlt : offset < c.size)
    (h : c.operand? (offset + 1) kind = some operand) : offset + (1 + kind.size) ≤ c.size := by
  have hbound : ∀ {k : Nat} {byte : UInt8}, c.code[k]? = some byte → k < c.size := fun hget =>
    (Array.getElem?_eq_some_iff.mp hget).1
  cases kind with
  | none => exact hlt
  | slot | constant =>
    obtain ⟨byte, hbyte, -⟩ := Option.map_eq_some_iff.mp h
    exact hbound hbyte
  | forward | backward =>
    have hread : c.read16? (offset + 1) = some operand := h
    rw [Chunk.read16?] at hread
    split at hread
    · next hhigh hlow => exact hbound hlow
    · cases hread

/-- No line leads past the end of the code. -/
theorem row_snd_le (hlt : offset < c.size) : (row interner c offset).2 ≤ c.size := by
  have hbyte : c.code[offset]? = some c.code[offset] := Array.getElem?_eq_getElem hlt
  cases hop : OpCode.ofByte? c.code[offset] with
  | none =>
    rw [row_snd_of_unknown hbyte hop]
    exact hlt
  | some op =>
    cases hoperand : c.operand? (offset + 1) op.operand with
    | none => exact Nat.le_of_eq (row_snd_of_truncated hbyte hop hoperand)
    | some operand =>
      have hread : c.instruction? offset = some ⟨op, operand⟩ := by
        simp [Chunk.instruction?, hbyte, hop, hoperand]
      rw [row_snd_of_instruction? hread]
      exact size_le_of_operand? hlt hoperand

/-! ### The offsets of a listing -/

/-- The first line is for the offset where the listing starts, or there is none if that is the
end. -/
theorem head?_offsets (h : offset ≤ c.size) :
    (offsets interner c offset ++ [c.size]).head? = some offset := by
  rcases Nat.lt_or_eq_of_le h with hlt | rfl
  · rw [offsets_of_lt hlt]
    rfl
  · rw [offsets_of_le (Nat.le_refl _)]
    rfl

/-- **Each line leads to the next**, and the last one to the end of the code. -/
theorem isChain_offsets (h : offset ≤ c.size) :
    (offsets interner c offset ++ [c.size]).IsChain
      fun o next => (row interner c o).2 = next := by
  induction offset using offsets.induct interner c with
  | case1 offset hlt ih =>
    have hle : (row interner c offset).2 ≤ c.size := row_snd_le hlt
    rw [offsets_of_lt hlt, List.cons_append, List.isChain_cons]
    refine ⟨fun next hnext => ?_, ih hle⟩
    rw [head?_offsets hle] at hnext
    exact Option.some.inj hnext
  | case2 offset hend =>
    rw [offsets_of_le (Nat.not_lt.mp hend)]
    exact .singleton _

/-- The offsets increase, up to the end of the code. -/
theorem pairwise_offsets (h : offset ≤ c.size) :
    (offsets interner c offset ++ [c.size]).Pairwise (· < ·) :=
  List.isChain_iff_pairwise.mp ((isChain_offsets h).imp fun o _ hnext => by
    rw [← hnext]
    exact lt_row_snd interner c o)

/-- The line that leads to the end of the code is the last. -/
theorem getLast?_offsets (h : offset ≤ c.size) {o : Nat} (ho : o ∈ offsets interner c offset)
    (hend : (row interner c o).2 = c.size) : (offsets interner c offset).getLast? = some o := by
  induction offset using offsets.induct interner c with
  | case1 offset hlt ih =>
    rw [offsets_of_lt hlt] at ho ⊢
    rcases List.mem_cons.mp ho with rfl | hmem
    · rw [hend, offsets_of_le (Nat.le_refl _)]
      rfl
    · rw [List.getLast?_cons, ih (row_snd_le hlt) hmem]
      rfl
  | case2 offset hlt =>
    rw [offsets_of_le (Nat.not_lt.mp hlt)] at ho
    exact absurd ho List.not_mem_nil

end Listing

/-! ### Where a machine goes on -/

namespace Machine

variable {c : Chunk} {m next : Machine}

/-- Whether the machine takes the jump of an instruction. -/
def Jumps (m : Machine) : OpCode → Prop
  | .jump | .loop => True
  | .jumpIfFalse => ∃ condition, m.stack.back? = some condition ∧ condition.isFalsey = true
  | _ => False

/-- What follows a computation that succeeds has its value to go on with. -/
theorem exists_of_bind_eq_ok {α β : Type} {x : Except RuntimeError α}
    {f : α → Except RuntimeError β} {b : β} (h : x >>= f = .ok b) : ∃ a, x = .ok a ∧ f a = .ok b := by
  cases x with
  | error e => cases h
  | ok a => exact ⟨a, rfl, h⟩

theorem offset_of_pop {v : Value} (h : m.pop = .ok (v, next)) : next.offset = m.offset := by
  rw [pop] at h
  split at h
  · obtain ⟨-, rfl⟩ := Prod.mk.inj (Except.ok.inj h)
    rfl
  · cases h

theorem offset_of_onNumbers {f : Float → Float → Value} (h : m.onNumbers f = .ok next) :
    next.offset = m.offset := by
  obtain ⟨⟨b, m₁⟩, hb, h⟩ := exists_of_bind_eq_ok h
  obtain ⟨⟨a, m₂⟩, ha, h⟩ := exists_of_bind_eq_ok h
  cases a with
  | number x =>
    cases b with
    | number y =>
      rw [← Except.ok.inj h]
      exact (offset_of_pop ha).trans (offset_of_pop hb)
    | _ => cases h
  | _ => cases h

theorem offset_of_add (h : m.add = .ok next) : next.offset = m.offset := by
  obtain ⟨⟨b, m₁⟩, hb, h⟩ := exists_of_bind_eq_ok h
  obtain ⟨⟨a, m₂⟩, ha, h⟩ := exists_of_bind_eq_ok h
  have hpops : m₂.offset = m.offset := (offset_of_pop ha).trans (offset_of_pop hb)
  cases a with
  | number x =>
    cases b with
    | number y =>
      rw [← Except.ok.inj h]
      exact hpops
    | _ => cases h
  | string x =>
    cases b with
    | string y =>
      rw [← Except.ok.inj h]
      exact hpops
    | _ => cases h
  | _ => cases h

/-- An instruction leaves the offset alone, unless it jumps. -/
theorem offset_of_execute {op : OpCode} {operand distance : Nat}
    (h : execute c m op operand distance = .ok next) (hjumps : ¬m.Jumps op) :
    next.offset = m.offset := by
  cases op with
  | constant =>
    obtain ⟨v, -, h⟩ := exists_of_bind_eq_ok h
    rw [← Except.ok.inj h]
    rfl
  | nil | true | false =>
    rw [← Except.ok.inj h]
    rfl
  | halt => rw [← Except.ok.inj h]
  | pop | not | print =>
    obtain ⟨⟨v, m₁⟩, hv, h⟩ := exists_of_bind_eq_ok h
    rw [← Except.ok.inj h]
    exact (offset_of_pop hv : m₁.offset = m.offset)
  | getLocal =>
    rw [execute] at h
    split at h
    · rw [← Except.ok.inj h]
      rfl
    · cases h
  | setLocal =>
    obtain ⟨v, -, h⟩ := exists_of_bind_eq_ok h
    split at h
    · rw [← Except.ok.inj h]
    · cases h
  | getGlobal =>
    obtain ⟨name, -, h⟩ := exists_of_bind_eq_ok h
    split at h
    · rw [← Except.ok.inj h]
      rfl
    · cases h
  | defineGlobal =>
    obtain ⟨name, -, h⟩ := exists_of_bind_eq_ok h
    obtain ⟨⟨v, m₁⟩, hv, h⟩ := exists_of_bind_eq_ok h
    rw [← Except.ok.inj h]
    exact (offset_of_pop hv : m₁.offset = m.offset)
  | setGlobal =>
    obtain ⟨name, -, h⟩ := exists_of_bind_eq_ok h
    obtain ⟨v, -, h⟩ := exists_of_bind_eq_ok h
    split at h
    · rw [← Except.ok.inj h]
    · cases h
  | equal =>
    obtain ⟨⟨b, m₁⟩, hb, h⟩ := exists_of_bind_eq_ok h
    obtain ⟨⟨a, m₂⟩, ha, h⟩ := exists_of_bind_eq_ok h
    rw [← Except.ok.inj h]
    exact (offset_of_pop ha).trans (offset_of_pop hb)
  | greater | less | subtract | multiply | divide => exact offset_of_onNumbers h
  | add => exact offset_of_add h
  | negate =>
    obtain ⟨⟨v, m₁⟩, hv, h⟩ := exists_of_bind_eq_ok h
    cases v with
    | number x =>
      rw [← Except.ok.inj h]
      exact (offset_of_pop hv : m₁.offset = m.offset)
    | _ => cases h
  | jumpIfFalse =>
    obtain ⟨condition, hpeek, h⟩ := exists_of_bind_eq_ok h
    rw [← Except.ok.inj h]
    split
    · next hfalsey =>
      refine absurd ⟨condition, ?_, hfalsey⟩ hjumps
      rw [peek] at hpeek
      split at hpeek
      · next hback => rw [hback, Except.ok.inj hpeek]
      · cases hpeek
    · rfl
  | jump | loop => exact absurd trivial hjumps

/-- **A machine that does not jump goes on behind the instruction.** -/
theorem offset_step {i : Instruction} (hread : c.instruction? m.offset = some i)
    (hstep : m.step c = .running next) (hjumps : ¬m.Jumps i.op) :
    next.offset = m.offset + i.size := by
  by_cases hop : i.op = .halt
  · obtain ⟨byte, hbyte, hbyteOp, -⟩ := exists_of_instruction? hread
    rw [step, hbyte] at hstep
    simp only [hbyteOp, hop] at hstep
    split at hstep <;> cases hstep
  · rw [step_of_instruction? hread hop] at hstep
    cases hexecute : execute c { m with offset := m.offset + i.size } i.op i.operand i.operand with
    | error e =>
      rw [hexecute] at hstep
      cases hstep
    | ok next' =>
      rw [hexecute] at hstep
      rw [← Progress.running.inj hstep]
      exact offset_of_execute hexecute hjumps

end Machine

/-! ### Where jumps lead -/

/-- Where a jump at an offset leads. It may be before the start of the code. -/
def Instruction.target (i : Instruction) (offset : Nat) : Int :=
  match i.op.operand with
  | .backward => (offset : Int) + 3 - i.operand
  | _ => (offset : Int) + 3 + i.operand

/-- The line of a jump shows where it leads. -/
theorem Listing.row_fst_of_isJump {interner : Interner} {c : Chunk} {offset : Nat} {i : Instruction}
    (hread : c.instruction? offset = some i) (hjump : i.isJump) :
    (row interner c offset).1 = position c offset ++ (operandColumn i.op.mnemonic ++ column offset ++
      " -> " ++ toString (i.target offset) ++ "\n") := by
  obtain ⟨byte, hbyte, hop, hoperand⟩ := Machine.exists_of_instruction? hread
  simp only [row, content, hbyte, hop, instruction, Instruction.target]
  rw [Instruction.isJump] at hjump
  cases hkind : i.op.operand with
  | none | slot | constant =>
    rw [hkind] at hjump
    exact absurd hjump (by decide)
  | forward | backward =>
    rw [hkind] at hoperand
    have hdistance : c.read16? (offset + 1) = some i.operand := hoperand
    rw [hdistance]

/-- **A machine that takes a jump goes on where the jump leads**, and fails if that is before the
start of the code. -/
theorem Machine.step_of_jumps {c : Chunk} {m : Machine} {i : Instruction}
    (hread : c.instruction? m.offset = some i) (hjumps : m.Jumps i.op) :
    m.step c =
      if 0 ≤ i.target m.offset then .running { m with offset := (i.target m.offset).toNat }
      else .failed (.jumpBeforeStart (m.offset + i.size) i.operand) := by
  obtain ⟨op, operand⟩ := i
  have hforward : ((m.offset + 3 + operand : Nat) : Int) = (m.offset : Int) + 3 + operand := by omega
  cases op with
  | jump =>
    have htarget : Instruction.target ⟨.jump, operand⟩ m.offset = (m.offset + 3 + operand : Nat) :=
      hforward.symm
    rw [step_of_instruction? hread (by simp), execute, htarget, if_pos (Int.natCast_nonneg _)]
    rfl
  | jumpIfFalse =>
    obtain ⟨condition, hback, hfalsey⟩ := hjumps
    have htarget : Instruction.target ⟨.jumpIfFalse, operand⟩ m.offset =
        (m.offset + 3 + operand : Nat) := hforward.symm
    rw [step_of_instruction? hread (by simp), execute, htarget, if_pos (Int.natCast_nonneg _), peek,
      hback]
    show progress (.ok (if condition.isFalsey then _ else _)) = _
    rw [if_pos hfalsey]
    rfl
  | loop =>
    have htarget : Instruction.target ⟨.loop, operand⟩ m.offset = (m.offset + 3 : Nat) - operand := rfl
    rw [step_of_instruction? hread (by simp), execute, htarget]
    by_cases hback : operand ≤ m.offset + 3
    · rw [if_pos (show operand ≤ m.offset + Instruction.size ⟨.loop, operand⟩ from hback),
        if_pos (by omega), ← Int.ofNat_sub hback]
      rfl
    · rw [if_neg (show ¬operand ≤ m.offset + Instruction.size ⟨.loop, operand⟩ from hback),
        if_neg (by omega)]
      rfl
  | _ => exact absurd hjumps id

namespace Listing

/-- **A listing and a machine decode alike**, whatever the chunk. The listing has a line for each of
its offsets, which start at zero and increase, each being where the line before leads to, up to the
size of the code. An instruction that is all there leads behind itself, which is where a machine that
does not jump goes on. A byte that is no instruction is passed alone, and an instruction that is cut
off has the last line. A jump is shown with its target, which is where a machine that takes it goes
on; if the target is negative, the machine fails. -/
theorem decodes_as_executed (interner : Interner) (c : Chunk) (name : String) :
    let visited := offsets interner c 0
    chunk interner c name =
      "== " ++ name ++ " ==\n" ++ String.join (visited.map fun o => (row interner c o).1) ∧
    (visited ++ [c.size]).head? = some 0 ∧
    (visited ++ [c.size]).Pairwise (· < ·) ∧
    (visited ++ [c.size]).IsChain (fun o next => (row interner c o).2 = next) ∧
    ∀ o ∈ visited,
      (∀ i, c.instruction? o = some i →
        (row interner c o).2 = o + (1 + i.op.operand.size) ∧
        (∀ m next : Machine, m.offset = o → m.step c = .running next → ¬m.Jumps i.op →
          next.offset = (row interner c o).2) ∧
        (i.isJump →
          (row interner c o).1 = position c o ++ (operandColumn i.op.mnemonic ++ column o ++ " -> " ++
            toString (i.target o) ++ "\n") ∧
          ∀ m : Machine, m.offset = o → m.Jumps i.op → m.step c =
            if 0 ≤ i.target o then .running { m with offset := (i.target o).toNat }
            else .failed (.jumpBeforeStart (o + 3) i.operand))) ∧
      (∀ byte, c.code[o]? = some byte → OpCode.ofByte? byte = none →
        (row interner c o).2 = o + 1) ∧
      (∀ byte op, c.code[o]? = some byte → OpCode.ofByte? byte = some op →
        c.operand? (o + 1) op.operand = none → visited.getLast? = some o) := by
  have hstart : 0 ≤ c.size := Nat.zero_le _
  refine ⟨rows_eq interner c 0 _, head?_offsets hstart, pairwise_offsets hstart,
    isChain_offsets hstart, fun o ho => ⟨fun i hread => ⟨?_, ?_, ?_⟩, fun byte => ?_,
      fun byte op hbyte hop hoperand => ?_⟩⟩
  · exact row_snd_of_instruction? hread
  · rintro m next rfl hstep hjumps
    rw [row_snd_of_instruction? hread]
    exact Machine.offset_step hread hstep hjumps
  · intro hjump
    refine ⟨row_fst_of_isJump hread hjump, ?_⟩
    rintro m rfl hjumps
    have hsize : i.size = 3 := congrArg (1 + ·) (eq_of_beq hjump)
    rw [Machine.step_of_jumps hread hjumps, hsize]
  · exact row_snd_of_unknown
  · exact getLast?_offsets hstart ho (row_snd_of_truncated hbyte hop hoperand)

/-- A value, a loop back to itself, a byte that is no instruction, and a constant without its
index. -/
theorem decodes_as_executed_of_mixed_bytes :
    let c : Chunk := ⟨#[1, 22, 0, 3, 250, 0], #[1, 1, 1, 1, 2, 2], #[]⟩
    let m := Machine.start .empty
    offsets .empty c 0 = [0, 1, 4, 5] ∧
    c.instruction? 0 = some ⟨.nil, 0⟩ ∧ (row .empty c 0).2 = 1 ∧
    m.step c = .running { m.push .nil with offset := (row .empty c 0).2 } ∧
    c.instruction? 1 = some ⟨.loop, 3⟩ ∧ (row .empty c 1).2 = 4 ∧
    (row .empty c 1).1 = "0001    | OP_LOOP             1 -> 1\n" ∧
    Machine.step c { m with offset := 1 } = .running { m with offset := 1 } ∧
    OpCode.ofByte? 250 = none ∧ (row .empty c 4).2 = 5 ∧
    c.operand? 6 .constant = none ∧ (offsets .empty c 0).getLast? = some 5 := by
  intro c m
  obtain ⟨-, -, -, -, hvisited⟩ := decodes_as_executed .empty c "code"
  have hoffsets : offsets .empty c 0 = [0, 1, 4, 5] := by decide +kernel
  have hmem : ∀ o ∈ [0, 1, 4, 5], o ∈ offsets .empty c 0 := fun o ho => hoffsets ▸ ho
  have hnil : c.instruction? 0 = some ⟨.nil, 0⟩ := by decide
  have hloop : c.instruction? 1 = some ⟨.loop, 3⟩ := by decide
  obtain ⟨hplain, hgoesOn, -⟩ := (hvisited 0 (hmem 0 (by decide))).1 _ hnil
  obtain ⟨hbehind, -, hjump⟩ := (hvisited 1 (hmem 1 (by decide))).1 _ hloop
  obtain ⟨hshown, hleads⟩ := hjump rfl
  have hunknown := (hvisited 4 (hmem 4 (by decide))).2.1 250 rfl (by decide)
  have hlast := (hvisited 5 (hmem 5 (by decide))).2.2 0 .constant rfl (by decide) (by decide)
  have hstep : m.step c = .running { m.push .nil with offset := 1 } := rfl
  have hnext : 1 = (row .empty c 0).2 := hgoesOn m _ rfl hstep id
  refine ⟨hoffsets, hnil, hplain, ?_, hloop, hbehind, ?_, hleads { m with offset := 1 } rfl trivial,
    by decide, hunknown, by decide, hlast⟩
  · rw [← hnext]
    exact hstep
  · rw [hshown]
    decide +kernel

end Listing

end Lox
