import Lox.Bytecode.Machine
import Lox.Bytecode.Verified

/-!
# Reading instructions back

The bytes of code are cut into the instructions they were written from, and executing the
instruction at the offset of a machine uses just the operand that is read back.

## Main definitions

* `Instruction.Encodable`: the operand fits into its bytes.
* `withOffsets`: the instructions of code with their offsets.

## Main results

* `Chunk.instruction?_of_code`, `Chunk.reads_codeBytes`: instructions are read back.
* `Machine.step_of_instruction?`: the step of a machine at an instruction.
-/

namespace Lox

/-- The operand fits into its bytes. -/
def Instruction.Encodable (i : Instruction) : Prop :=
  match i.op.operand with
  | .none => i.operand = 0
  | .constant | .slot => i.operand < 256
  | .forward | .backward => i.operand ≤ 65535

/-- The instructions of code that starts at an offset, with their offsets. -/
def withOffsets : Nat → List Instruction → List (Nat × Instruction)
  | _, [] => []
  | offset, i :: code => (offset, i) :: withOffsets (offset + i.size) code

theorem withOffsets_append (offset : Nat) (xs ys : List Instruction) :
    withOffsets offset (xs ++ ys) =
      withOffsets offset xs ++ withOffsets (offset + codeSize xs) ys := by
  induction xs generalizing offset with
  | nil => rfl
  | cons i xs ih =>
    rw [List.cons_append, withOffsets, withOffsets, ih, codeSize_cons, Nat.add_assoc]
    rfl

namespace Chunk

variable {c : Chunk}

/-! ### Reading -/

theorem getElem?_code {before after : List UInt8} (h : c.code.toList = before ++ after) (k : Nat) :
    c.code[before.length + k]? = after[k]? := by
  rw [← Array.getElem?_toList, h, List.getElem?_append_right (Nat.le_add_right _ _),
    Nat.add_sub_cancel_left]

/-- The two bytes of a distance are read back as the distance. -/
theorem highByte_lowByte {distance : Nat} (h : distance ≤ 65535) :
    (highByte distance).toNat * 256 + (lowByte distance).toNat = distance := by
  have hhigh : (highByte distance).toNat = distance / 256 := by
    rw [highByte, UInt8.toNat_ofNat']
    omega
  have hlow : (lowByte distance).toNat = distance % 256 := UInt8.toNat_ofNat'
  rw [hhigh, hlow]
  omega

/-- An instruction is read back from its bytes. -/
theorem instruction?_of_code {i : Instruction} (hi : i.Encodable) {before after : List UInt8}
    (h : c.code.toList = before ++ i.bytes ++ after) :
    c.instruction? before.length = some i := by
  obtain ⟨op, operand⟩ := i
  rw [List.append_assoc] at h
  have hcode := getElem?_code h
  have hop : c.code[before.length]? = some op.toByte := hcode 0
  rw [instruction?, hop]
  simp only [Option.bind_eq_bind, Option.bind_some, OpCode.ofByte?_toByte]
  rw [Instruction.Encodable] at hi
  rw [Instruction.bytes] at hcode
  have hfirst := hcode 1
  have hsecond := hcode 2
  cases hkind : op.operand with
  | none =>
    simp only [hkind] at hi
    simp [operand?, hi]
  | constant | slot =>
    simp only [hkind] at hi hfirst
    simp [operand?, hfirst, UInt8.toNat_ofNat', Nat.mod_eq_of_lt hi]
  | forward | backward =>
    simp only [hkind] at hi hfirst hsecond
    have hread : c.read16? (before.length + 1) = some operand := by
      rw [read16?, hfirst, show before.length + 1 + 1 = before.length + 2 from rfl, hsecond]
      exact congrArg some (highByte_lowByte hi)
    simp [operand?, hread]

theorem reads_codeBytes {code : List Instruction} (hcode : ∀ i ∈ code, i.Encodable)
    {before : List UInt8} (h : c.code.toList = before ++ codeBytes code) :
    c.Reads before.length (withOffsets before.length code) := by
  induction code generalizing before with
  | nil =>
    rw [codeBytes_nil, List.append_nil] at h
    have hsize : before.length = c.size := by rw [← h, size, Array.length_toList]
    rw [hsize]
    exact .done
  | cons i code ih =>
    rw [codeBytes_cons] at h
    have hrest := ih (fun i hi => hcode i (List.mem_cons_of_mem _ hi))
      (show _ = (before ++ i.bytes) ++ _ by rw [h, List.append_assoc])
    rw [List.length_append, i.length_bytes] at hrest
    exact .next (instruction?_of_code (hcode i List.mem_cons_self)
      (by rw [h, List.append_assoc])) hrest

/-- What is read stands where it is read. -/
theorem Reads.instruction?_of_mem {offset : Nat} {listed : List (Nat × Instruction)}
    (h : c.Reads offset listed) {x : Nat × Instruction} (hx : x ∈ listed) :
    c.instruction? x.1 = some x.2 := by
  induction h with
  | done => exact absurd hx List.not_mem_nil
  | next here _ ih =>
    rcases List.mem_cons.mp hx with rfl | hmem
    · exact here
    · exact ih hmem

/-- If anything is read at all, then at the offset where reading starts. -/
theorem Reads.exists_mem {offset : Nat} {listed : List (Nat × Instruction)}
    (h : c.Reads offset listed) (hne : listed ≠ []) : ∃ i, (offset, i) ∈ listed := by
  cases h with
  | done => exact absurd rfl hne
  | next => exact ⟨_, List.mem_cons_self⟩

end Chunk

/-! ### Executing -/

namespace Machine

variable {c : Chunk} {m : Machine}

theorem globalName_eq {operand : Nat} {name : Symbol}
    (h : c.constants[operand]? = some (.string name)) : globalName c operand = .ok name := by
  rw [globalName, constant, h]
  rfl

/-- What an execution leads to. -/
def progress : Except RuntimeError Machine → Progress
  | .ok next => .running next
  | .error e => .failed e

/-- An opcode looks at an operand of its own kind only. -/
theorem execute_congr (c : Chunk) (m : Machine) {op : OpCode} {operand distance n : Nat}
    (hbyte : op.operand = .constant ∨ op.operand = .slot → operand = n)
    (hjump : op.operand = .forward ∨ op.operand = .backward → distance = n) :
    execute c m op operand distance = execute c m op n n := by
  cases op <;> simp_all [OpCode.operand, execute]

/-- What is read at an offset is what a step finds there. -/
theorem exists_of_instruction? {offset : Nat} {i : Instruction}
    (h : c.instruction? offset = some i) :
    ∃ byte, c.code[offset]? = some byte ∧ OpCode.ofByte? byte = some i.op ∧
      c.operand? (offset + 1) i.op.operand = some i.operand := by
  rw [Chunk.instruction?] at h
  cases hbyte : c.code[offset]? with
  | none => simp [hbyte] at h
  | some byte =>
    cases hread : OpCode.ofByte? byte with
    | none => simp [hbyte, hread] at h
    | some op =>
      simp only [hbyte, hread, Option.bind_eq_bind, Option.bind_some] at h
      cases hoperand : c.operand? (offset + 1) op.operand with
      | none => simp [hoperand] at h
      | some n =>
        simp only [hoperand, Option.bind_some, Option.pure_def, Option.some.injEq] at h
        subst h
        exact ⟨byte, rfl, hread, hoperand⟩

/-- **A step** executes the instruction that is read at the offset. -/
theorem step_of_instruction? {i : Instruction} (h : c.instruction? m.offset = some i)
    (hop : i.op ≠ .halt) :
    m.step c =
      progress (execute c { m with offset := m.offset + i.size } i.op i.operand i.operand) := by
  obtain ⟨byte, hbyte, hread, hoperand⟩ := exists_of_instruction? h
  have hexecute : ∀ m' : Machine, execute c m' i.op ((c.code[m.offset + 1]?).getD 0).toNat
      ((c.read16? (m.offset + 1)).getD 0) = execute c m' i.op i.operand i.operand := by
    intro m'
    refine execute_congr c m' ?_ ?_
    · intro hkind
      have hbyte : c.code[m.offset + 1]?.map UInt8.toNat = some i.operand := by
        rcases hkind with hkind | hkind <;> rwa [hkind] at hoperand
      obtain ⟨b, hb, hn⟩ := Option.map_eq_some_iff.mp hbyte
      rw [hb, Option.getD_some, hn]
    · intro hkind
      have hdistance : c.read16? (m.offset + 1) = some i.operand := by
        rcases hkind with hkind | hkind <;> rwa [hkind] at hoperand
      rw [hdistance, Option.getD_some]
  rw [step, hbyte]
  simp only [hread]
  rw [hexecute]
  rfl

theorem step_of_halt (h : c.instruction? m.offset = some ⟨.halt, 0⟩) :
    m.step c = if m.stack.isEmpty then .finished else .failed (.valuesLeft m.stack.size) := by
  obtain ⟨byte, hbyte, hread, -⟩ := exists_of_instruction? h
  rw [step, hbyte]
  simp only [hread]

end Machine

end Lox
