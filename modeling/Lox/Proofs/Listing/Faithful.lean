import Lox.Bytecode.Structure
import Lox.Proofs.Listing.Columns

/-!
# What a listing tells of a chunk

Two chunks that are listed alike have the same code and the same line table, whatever their constants
are: the listing of a chunk of whole instructions, each on one line of the source, can stand for it.

The lines of the two listings are gone through together. As far as the instructions agree, the next
line is for the same offset in both, and the bar in it stands for the same line of the source. So the
next instructions agree, and what is left of the listings does too.

## Main definitions

* `Instruction.asRead`: an instruction as it is read back from its bytes.
* `Listing.linesFrom`: the text of a listing from an offset on.

## Main results

* `Listing.eq_of_linesFrom_eq`: the instructions left are the same if the text left is.
* `Listing.faithful`: chunks that are listed alike agree.
-/

namespace Lox

/-! ### Instructions as they are read back -/

/-- The instruction that is read back from the bytes of an instruction, whose operand may not fit
into them. -/
def Instruction.asRead (i : Instruction) : Instruction :=
  match i.op.operand with
  | .none => ⟨i.op, 0⟩
  | .constant | .slot => ⟨i.op, i.operand % 256⟩
  | .forward | .backward => ⟨i.op, i.operand % 65536⟩

theorem Instruction.op_asRead (i : Instruction) : i.asRead.op = i.op := by
  rw [asRead]
  cases i.op.operand <;> rfl

theorem Instruction.encodable_asRead (i : Instruction) : i.asRead.Encodable := by
  rw [Encodable, op_asRead, asRead]
  cases i.op.operand with
  | none => rfl
  | constant | slot => exact Nat.mod_lt _ (by decide)
  | forward | backward => exact Nat.le_of_lt_succ (Nat.mod_lt _ (by decide))

/-- Both have the same bytes. -/
theorem Instruction.bytes_asRead (i : Instruction) : i.asRead.bytes = i.bytes := by
  rw [bytes, bytes, op_asRead, asRead]
  congr 1
  have hlow : ∀ n : Nat, UInt8.ofNat (n % 65536) = UInt8.ofNat n := fun n =>
    UInt8.toNat_inj.mp (by rw [UInt8.toNat_ofNat', UInt8.toNat_ofNat']; omega)
  have hhigh : ∀ n : Nat, UInt8.ofNat (n % 65536 / 256) = UInt8.ofNat (n / 256) := fun n =>
    UInt8.toNat_inj.mp (by rw [UInt8.toNat_ofNat', UInt8.toNat_ofNat']; omega)
  cases i.op.operand with
  | none => rfl
  | constant | slot => exact congrArg ([·]) (UInt8.toNat_inj.mp (by simp))
  | forward | backward => simp only [Chunk.highByte, Chunk.lowByte, hhigh, hlow]

namespace Chunk

variable {c c' : Chunk} {done code code' : List (Instruction × Nat)} {i : Instruction} {line : Nat}

/-- A chunk consists of its instructions as they are read back. -/
theorem ConsistsOf.asRead (h : c.ConsistsOf code) :
    c.ConsistsOf (code.map fun i => (i.1.asRead, i.2)) := by
  constructor
  · rw [h.bytes]
    clear h
    induction code with
    | nil => rfl
    | cons i code ih => simp only [List.map_cons, codeBytes_cons, ih, i.1.bytes_asRead]
  · rw [h.lines, List.flatMap_map]
    simp only [Instruction.size, Instruction.op_asRead]

/-- The instruction behind some others is read back at its offset. -/
theorem ConsistsOf.instruction? (h : c.ConsistsOf (done ++ (i, line) :: code)) (hi : i.Encodable) :
    c.instruction? (codeSize (done.map Prod.fst)) = some i := by
  have hbytes : c.code.toList =
      codeBytes (done.map Prod.fst) ++ i.bytes ++ codeBytes (code.map Prod.fst) := by
    rw [h.bytes]
    simp
  rw [← length_codeBytes]
  exact instruction?_of_code hi hbytes

theorem length_lines (code : List (Instruction × Nat)) :
    (code.flatMap fun i => List.replicate i.1.size i.2).length = codeSize (code.map Prod.fst) := by
  induction code with
  | nil => rfl
  | cons i code ih => simp [ih]

/-- Its line is that of the byte there. -/
theorem ConsistsOf.line? (h : c.ConsistsOf (done ++ (i, line) :: code)) :
    c.line? (codeSize (done.map Prod.fst)) = some line := by
  have hsize : i.size = i.op.operand.size + 1 := Nat.add_comm _ _
  rw [Chunk.line?, ← Array.getElem?_toList, h.lines, List.flatMap_append, ← length_lines,
    List.getElem?_append_right (Nat.le_refl _), Nat.sub_self, List.flatMap_cons, hsize]
  rfl

/-- The line of the byte before is the same in chunks that agree up to there. -/
theorem ConsistsOf.lineBefore_eq (h : c.ConsistsOf (done ++ code))
    (h' : c'.ConsistsOf (done ++ code')) :
    Listing.lineBefore c (codeSize (done.map Prod.fst)) =
      Listing.lineBefore c' (codeSize (done.map Prod.fst)) := by
  have hline : ∀ {c : Chunk} {code : List (Instruction × Nat)} {k : Nat}, c.ConsistsOf (done ++ code) →
      k < codeSize (done.map Prod.fst) →
        c.line? k = (done.flatMap fun i => List.replicate i.1.size i.2)[k]? := by
    intro c code k h hlt
    rw [Chunk.line?, ← Array.getElem?_toList, h.lines, List.flatMap_append,
      List.getElem?_append_left (by rwa [length_lines])]
  rw [Listing.lineBefore, Listing.lineBefore]
  split
  · rfl
  · rw [hline h (by omega), hline h' (by omega)]

theorem ConsistsOf.size_eq (h : c.ConsistsOf code) : c.size = codeSize (code.map Prod.fst) := by
  rw [size, ← Array.length_toList, h.bytes, length_codeBytes]

end Chunk

namespace Listing

variable {interner : Interner} {c c' : Chunk} {done code code' : List (Instruction × Nat)}

/-- The text of a listing from an offset on. -/
def linesFrom (interner : Interner) (c : Chunk) (offset : Nat) : List Char :=
  (offsets interner c offset).flatMap fun o => (row interner c o).1.toList

theorem toList_chunk (interner : Interner) (c : Chunk) (name : String) :
    (chunk interner c name).toList = ("== " ++ name ++ " ==\n").toList ++ linesFrom interner c 0 := by
  rw [chunk, rows_eq, String.toList_append, String.toList_join, linesFrom, List.flatMap_map]

/-- Before an instruction there is its line, and behind it those of the instructions behind. -/
theorem linesFrom_of_instruction? {offset : Nat} {i : Instruction}
    (h : c.instruction? offset = some i) :
    linesFrom interner c offset =
      (row interner c offset).1.toList ++ linesFrom interner c (offset + i.size) := by
  obtain ⟨byte, hbyte, -⟩ := Machine.exists_of_instruction? h
  have hlt : offset < c.size := (Array.getElem?_eq_some_iff.mp hbyte).1
  rw [linesFrom, offsets_of_lt hlt, List.flatMap_cons, row_snd_of_instruction? h, linesFrom]

/-- Behind the last instruction there is nothing. -/
theorem linesFrom_of_consistsOf (h : c.ConsistsOf done) :
    linesFrom interner c (codeSize (done.map Prod.fst)) = [] := by
  rw [← h.size_eq, linesFrom, offsets_of_le (Nat.le_refl _)]
  rfl

/-- The line of an instruction is not empty. -/
theorem linesFrom_ne_nil {offset : Nat} {i : Instruction} (h : c.instruction? offset = some i) :
    linesFrom interner c offset ≠ [] := by
  rw [linesFrom_of_instruction? h, row_of_instruction? h]
  simp

/-- **The instructions left are the same** if the text left is, and those before are the same. -/
theorem eq_of_linesFrom_eq (honeLine : OnOneLine interner c) (honeLine' : OnOneLine interner c')
    (hc : c.ConsistsOf (done ++ code)) (hc' : c'.ConsistsOf (done ++ code'))
    (hfits : ∀ i ∈ code, i.1.Encodable) (hfits' : ∀ i ∈ code', i.1.Encodable)
    (h : linesFrom interner c (codeSize (done.map Prod.fst)) =
      linesFrom interner c' (codeSize (done.map Prod.fst))) : code = code' := by
  induction code generalizing done code' with
  | nil =>
    cases code' with
    | nil => rfl
    | cons i' code' =>
      rw [List.append_nil] at hc
      rw [linesFrom_of_consistsOf hc] at h
      exact absurd h.symm (linesFrom_ne_nil (hc'.instruction? (hfits' i' List.mem_cons_self)))
  | cons i code ih =>
    obtain ⟨hi, hfits⟩ := List.forall_mem_cons.mp hfits
    have hread := hc.instruction? hi
    cases code' with
    | nil =>
      rw [List.append_nil] at hc'
      rw [linesFrom_of_consistsOf hc'] at h
      exact absurd h (linesFrom_ne_nil hread)
    | cons i' code' =>
      obtain ⟨hi', hrestFits⟩ := List.forall_mem_cons.mp hfits'
      have hread' := hc'.instruction? hi'
      rw [linesFrom_of_instruction? hread, linesFrom_of_instruction? hread'] at h
      obtain ⟨hinstruction, hline, hrest⟩ := row_append_inj honeLine honeLine' hread hread' hi hi'
        hc.line? hc'.line? (hc.lineBefore_eq hc') h
      obtain rfl : i = i' := Prod.ext hinstruction hline
      have hsize : codeSize (done.map Prod.fst) + i.1.size =
          codeSize ((done ++ [i]).map Prod.fst) := by simp
      rw [hsize] at hrest
      rw [List.append_cons] at hc hc'
      rw [ih hc hc' hfits hrestFits hrest]

/-- **Chunks that are listed alike have the same code and the same line table**, if they are made of
whole instructions, all bytes of each of which are on its line, and no string constant goes over more
than one line. -/
theorem faithful (hc : c.ConsistsOf code) (hc' : c'.ConsistsOf code')
    (honeLine : OnOneLine interner c) (honeLine' : OnOneLine interner c') (name : String)
    (h : chunk interner c name = chunk interner c' name) : c.code = c'.code ∧ c.lines = c'.lines := by
  have htext : linesFrom interner c 0 = linesFrom interner c' 0 := by
    have hlists := congrArg String.toList h
    rw [toList_chunk, toList_chunk] at hlists
    exact List.append_cancel_left hlists
  have hfits : ∀ code : List (Instruction × Nat),
      ∀ i ∈ code.map (fun i => (i.1.asRead, i.2)), i.1.Encodable := by
    intro code i hi
    obtain ⟨i, -, rfl⟩ := List.mem_map.mp hi
    exact i.1.encodable_asRead
  have hcode := @eq_of_linesFrom_eq interner c c' [] _ _ honeLine honeLine' hc.asRead hc'.asRead
    (hfits code) (hfits code') htext
  exact ⟨Array.toList_inj.mp (by rw [hc.asRead.bytes, hcode, hc'.asRead.bytes]),
    Array.toList_inj.mp (by rw [hc.asRead.lines, hcode, hc'.asRead.lines])⟩

/-- A truth value and a string that is shown like it, a jump past the end and one before the
start. -/
theorem faithful_of_pools :
    let symbol := (Interner.empty.intern "true").1
    let interner := (Interner.empty.intern "true").2
    let code : List (Instruction × Nat) :=
      [(⟨.constant, 0⟩, 1), (⟨.jump, 65535⟩, 1), (⟨.loop, 9⟩, 3)]
    let c : Chunk := ⟨#[0, 0, 20, 255, 255, 22, 0, 9], #[1, 1, 1, 1, 1, 3, 3, 3], #[.bool true]⟩
    let c' : Chunk := ⟨#[0, 0, 20, 255, 255, 22, 0, 9], #[1, 1, 1, 1, 1, 3, 3, 3], #[.string symbol]⟩
    c ≠ c' ∧ c.ConsistsOf code ∧ c'.ConsistsOf code ∧ OnOneLine interner c ∧ OnOneLine interner c' ∧
      chunk interner c "code" = chunk interner c' "code" ∧ c.code = c'.code ∧ c.lines = c'.lines := by
  intro symbol interner code c c'
  have hc : c.ConsistsOf code := ⟨by decide, by decide⟩
  have hc' : c'.ConsistsOf code := ⟨by decide, by decide⟩
  have honeLine : OnOneLine interner c := by
    intro other hother
    exact absurd hother (by simp [c])
  have honeLine' : OnOneLine interner c' := by
    intro other hother
    obtain rfl : other = symbol := by simpa [c'] using hother
    decide +kernel
  have hlisted : chunk interner c "code" = chunk interner c' "code" := by decide +kernel
  exact ⟨by decide, hc, hc', honeLine, honeLine', hlisted,
    faithful hc hc' honeLine honeLine' "code" hlisted⟩

end Listing

end Lox
