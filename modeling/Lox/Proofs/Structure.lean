import Lox.Bytecode.Structure
import Lox.Proofs.Acceptance
import Lox.Proofs.Draft.Maintenance
import Lox.Proofs.Draft.Position
import Lox.Proofs.Draft.Writing

/-!
# The structure of compiled chunks

Every chunk that compiling answers is sound, also one that comes with diagnostics. A draft writes
whole instructions only, and what it patches is the operand of a jump. An operand that names a
constant is an index that the pool has answered; where the pool is full that is 0, which it has.
Lines are those of tokens that have been passed, and tokens are passed in the order of the source,
in recovery too.

## Main definitions

* `Draft.WrittenAs`: the code of a draft as instructions with their lines.
* `Draft.Structured`: a draft in a source whose code consists of instructions.

## Main results

* `Draft.maintained_structured`: compiling keeps drafts structured.
* `compile_sound`: the chunk of every source is sound.
-/

namespace Lox

namespace Draft

variable {d d' : Draft} {source : String} {ps ps' : List Pending} {op : OpCode} {u : Use}
  {code : List (Instruction × Nat)}

/-! ### Code and what is pending -/

/-- The draft has written these instructions, on lines in the order of the source up to that of the
token just passed. Operands name constants that it has, and so do the indices of texts that are
pending; pending placeholders are those of jumps. -/
structure WrittenAs (d : Draft) (code : List (Instruction × Nat)) (ps : List Pending) : Prop where
  consists : d.chunk.ConsistsOf code
  operands : ∀ i ∈ code, i.1.op.operand = .constant → i.1.operand < d.chunk.constants.size
  sorted : (code.map Prod.snd).Pairwise (· ≤ ·)
  lines : ∀ line ∈ code.map Prod.snd, 1 ≤ line ∧ line ≤ d.previous.line
  jumps : ∀ placeholder, .jump placeholder ∈ ps →
    HasPlaceholder (shape (code.map Prod.fst)) placeholder
  texts : ∀ u, .text u ∈ ps → u.operand.toNat < d.chunk.constants.size

theorem WrittenAs.size_eq (h : d.WrittenAs code ps) :
    d.size = codeSize (code.map Prod.fst) := by
  rw [size, Chunk.size, ← Array.length_toList, h.consists.bytes, length_codeBytes]

/-- The code stays what it is when tokens are passed and constants are added. -/
theorem WrittenAs.of_le (h : d.WrittenAs code ps) (hcode : d'.chunk.code = d.chunk.code)
    (hlines : d'.chunk.lines = d.chunk.lines)
    (hconstants : d.chunk.constants.size ≤ d'.chunk.constants.size)
    (hline : d.previous.line ≤ d'.previous.line) (hps : ps' ⊆ ps) : d'.WrittenAs code ps' where
  consists := ⟨hcode ▸ h.consists.bytes, hlines ▸ h.consists.lines⟩
  operands i hi hop := Nat.lt_of_lt_of_le (h.operands i hi hop) hconstants
  sorted := h.sorted
  lines line hmem := ⟨(h.lines line hmem).1, Nat.le_trans (h.lines line hmem).2 hline⟩
  jumps placeholder hmem := h.jumps placeholder (hps hmem)
  texts u hmem := Nat.lt_of_lt_of_le (h.texts u (hps hmem)) hconstants

/-- Writing one more instruction. -/
theorem WrittenAs.emit (h : d.WrittenAs code ps) (hline : 1 ≤ d.previous.line) (i : Instruction)
    (hi : i.op.operand = .constant → i.operand < d.chunk.constants.size) :
    (d.emit i).WrittenAs (code ++ [(i, d.previous.line)]) ps := by
  rw [emit_eq]
  refine ⟨⟨?_, ?_⟩, ?_, ?_, ?_, ?_, h.texts⟩
  · simp [h.consists.bytes]
  · simp [h.consists.lines]
  · intro j hj hop
    obtain hj | hj := List.mem_append.mp hj
    · exact h.operands j hj hop
    · obtain rfl := List.mem_singleton.mp hj
      exact hi hop
  · rw [List.map_append]
    refine List.pairwise_append.mpr ⟨h.sorted, List.pairwise_singleton _ _, fun m hm n hn => ?_⟩
    obtain rfl := List.mem_singleton.mp hn
    exact (h.lines m hm).2
  · intro m hm
    rw [List.map_append] at hm
    obtain hm | hm := List.mem_append.mp hm
    · exact h.lines m hm
    · obtain rfl := List.mem_singleton.mp hm
      exact ⟨hline, Nat.le_refl _⟩
  · intro placeholder hmem
    rw [List.map_append, shape_append]
    exact (h.jumps placeholder hmem).append _

/-- An operand of another kind names no constant. -/
theorem constant_of_operand {i : Instruction} {kind : OperandKind} {size : Nat}
    (hop : i.op.operand = kind) (hkind : kind ≠ .constant) :
    i.op.operand = .constant → i.operand < size := fun hconstant =>
  absurd (hop.symm.trans hconstant) hkind

/-- A jump leaves its placeholder pending. -/
theorem WrittenAs.emitJump (h : d.WrittenAs code ps) (hline : 1 ≤ d.previous.line)
    (hop : op.operand = .forward) :
    (d.emitJump op).2.WrittenAs (code ++ [(⟨op, maxDistance⟩, d.previous.line)])
      (.jump (d.emitJump op).1 :: ps) := by
  have hemit := h.emit hline ⟨op, maxDistance⟩ (constant_of_operand hop (by decide))
  have hsize := hemit.size_eq
  rw [emitJump_eq hop]
  refine ⟨hemit.consists, hemit.operands, hemit.sorted, hemit.lines, ?_, ?_⟩
  · intro placeholder hmem
    obtain heq | hmem := List.mem_cons.mp hmem
    · refine ⟨shape (code.map Prod.fst), ⟨op, 0⟩, [], by simp [shape], hop, ?_⟩
      rw [Pending.jump.inj heq, hsize]
      simp [Instruction.size, OpCode.size, hop, OperandKind.size]
    · exact hemit.jumps placeholder hmem
  · intro u hmem
    obtain heq | hmem := List.mem_cons.mp hmem
    · cases heq
    · exact hemit.texts u hmem

/-- A patch of a placeholder changes the operand of its jump. -/
theorem WrittenAs.patch (h : d.WrittenAs code ps) {placeholder : Nat}
    (hmem : .jump placeholder ∈ ps) (distance : Nat) :
    ∃ code', WrittenAs { d with chunk := d.chunk.patch placeholder distance } code' ps := by
  obtain ⟨_, op, operand, _, hcode, hop, rfl⟩ := (h.jumps placeholder hmem).exists_jump
  obtain ⟨before, rest, rfl, rfl, hrest⟩ := List.map_eq_append_iff.mp hcode
  obtain ⟨⟨_, line⟩, after, rfl, rfl, rfl⟩ := List.map_eq_cons_iff.mp hrest
  refine ⟨before ++ (⟨op, distance⟩, line) :: after, ⟨?_, ?_⟩, ?_, ?_, ?_, ?_, h.texts⟩
  · have hbytes := h.consists.bytes
    rw [List.map_append, List.map_cons] at hbytes ⊢
    exact Chunk.codeBytes_patch hop hbytes distance
  · refine h.consists.lines.trans ?_
    rw [List.flatMap_append, List.flatMap_append]
    rfl
  · intro i hi hconstant
    obtain hi | hi := List.mem_append.mp hi
    · exact h.operands i (List.mem_append_left _ hi) hconstant
    · obtain rfl | hi := List.mem_cons.mp hi
      · exact constant_of_operand hop (by decide) hconstant
      · exact h.operands i (List.mem_append_right _ (List.mem_cons_of_mem _ hi)) hconstant
  · simpa using h.sorted
  · simpa using h.lines
  · simpa [shape] using h.jumps

/-! ### Structured drafts -/

/-- The draft stands in the source, its constants are those of a pool, and its code consists of
instructions. -/
structure Structured (source : String) (ps : List Pending) (d : Draft) : Prop where
  along : d.Along source
  pool : ∃ pool, d.HasPool pool
  code : ∃ code, d.WrittenAs code ps

theorem Structured.emit (h : d.Structured source ps) (i : Instruction)
    (hi : i.op.operand = .constant → i.operand < d.chunk.constants.size) :
    (d.emit i).Structured source ps := by
  obtain ⟨halong, ⟨pool, hpool⟩, code, hcode⟩ := h
  refine ⟨?_, ⟨pool, ?_⟩, _, hcode.emit halong.line i hi⟩ <;> rw [emit_eq]
  · exact halong.of_eq rfl rfl rfl
  · exact hpool.of_eq rfl rfl rfl

/-- Only the tokens, the constants and the code have a part in it. -/
theorem Structured.of_eq (h : d.Structured source ps) (hps : ps' ⊆ ps)
    (hprevious : d'.previous = d.previous) (hahead : d'.ahead = d.ahead) (hlast : d'.last = d.last)
    (hchunk : d'.chunk = d.chunk) (hinterner : d'.interner = d.interner)
    (hstrings : d'.strings = d.strings) : d'.Structured source ps' := by
  obtain ⟨halong, ⟨pool, hpool⟩, code, hcode⟩ := h
  have hcode' : d'.WrittenAs code ps' :=
    hcode.of_le (by rw [hchunk]) (by rw [hchunk]) (by rw [hchunk]) (by rw [hprevious]) hps
  exact ⟨halong.of_eq hprevious hahead hlast, ⟨pool, hpool.of_eq hinterner (by rw [hchunk]) hstrings⟩,
    code, hcode'⟩

theorem Structured.report (h : d.Structured source ps) (t : Token) (problem : Problem) :
    (d.report t problem).Structured source ps := by
  obtain ⟨diagnostics, heq, -⟩ := exists_report_eq d t problem
  rw [heq]
  exact h.of_eq (List.Subset.refl ps) rfl rfl rfl rfl rfl rfl

theorem Structured.advance (h : d.Structured source ps) : d.advance.Structured source ps := by
  obtain ⟨halong, ⟨pool, hpool⟩, code, hcode⟩ := h
  have hline := (halong.previous _ d.current_mem_upcoming).2
  have halong' := halong.advance
  obtain ⟨rest, panicking, diagnostics, heq, -⟩ := exists_advance_eq d
  rw [heq] at halong' ⊢
  exact ⟨halong', ⟨pool, hpool.of_eq rfl rfl rfl⟩, code,
    hcode.of_le rfl rfl (Nat.le_refl _) hline (List.Subset.refl ps)⟩

/-- A text whose index the pool has answered is pending. -/
theorem Structured.pend (h : d.Structured source ps) {u : Use}
    (hindex : u.operand.toNat < d.chunk.constants.size) : d.Structured source (.text u :: ps) := by
  obtain ⟨halong, hpool, code, hcode⟩ := h
  refine ⟨halong, hpool, code, { hcode with jumps := ?_, texts := ?_ }⟩
  · intro placeholder hmem
    obtain heq | hmem := List.mem_cons.mp hmem
    · cases heq
    · exact hcode.jumps placeholder hmem
  · intro other hmem
    obtain heq | hmem := List.mem_cons.mp hmem
    · exact Pending.text.inj heq ▸ hindex
    · exact hcode.texts other hmem

/-- The pool grows, and answers the index of one of its constants. -/
theorem Structured.grow (h : d.Structured source ps) {interner : Interner}
    {strings : SymbolTable UInt8} {constants : Array Value} {pool pool' : Pool} {n : Nat}
    (hpool : d.HasPool pool)
    (hpool' : HasPool { d with interner, strings, chunk := { d.chunk with constants } } pool')
    (hgrow : pool <+: pool') (hn : n < pool'.length) :
    Structured source ps { d with interner, strings, chunk := { d.chunk with constants } } ∧
      (UInt8.ofNat n).toNat < constants.size := by
  obtain ⟨halong, -, code, hcode⟩ := h
  have hsize : constants.size = pool'.length := hpool'.size_constants
  have hle : d.chunk.constants.size ≤ constants.size := by
    rw [hsize, hpool.size_constants]
    exact hgrow.length_le
  have hgrown : Structured source ps { d with interner, strings, chunk := { d.chunk with constants } } :=
    ⟨halong.of_eq rfl rfl rfl, ⟨pool', hpool'⟩, code,
      hcode.of_le rfl rfl hle (Nat.le_refl _) (List.Subset.refl ps)⟩
  refine ⟨hgrown, ?_⟩
  have hbyte : n < 2 ^ 8 := Nat.lt_of_lt_of_le hn hpool'.bound
  rw [UInt8.toNat_ofNat', Nat.mod_eq_of_lt hbyte]
  exact hsize ▸ hn

/-- In a full pool 0 is an index. -/
theorem Structured.full (h : d.Structured source ps) (problem : Problem)
    (hfull : ¬d.chunk.constants.size < maxConstants) :
    (d.failAtPrevious problem).Structured source ps ∧
      (0 : UInt8).toNat < (d.failAtPrevious problem).chunk.constants.size := by
  refine ⟨h.report d.previous problem, ?_⟩
  rw [failAtPrevious]
  obtain ⟨diagnostics, heq, -⟩ := exists_report_eq d d.previous problem
  rw [heq]
  exact Nat.lt_of_lt_of_le (by decide) (Nat.not_lt.mp hfull)

theorem Structured.addNumber (h : d.Structured source ps) (value : Float) :
    (d.addConstant (.number value)).2.Structured source ps ∧
      ((d.addConstant (.number value)).1.getD 0).toNat <
        (d.addConstant (.number value)).2.chunk.constants.size := by
  obtain ⟨pool, hpool⟩ := h.pool
  by_cases hroom : pool.length < maxConstants
  · rw [hpool.addConstant_eq hroom]
    refine h.grow hpool (hpool.push hroom (.number value) rfl) (Pool.prefix_add pool _) ?_
    rw [Pool.add_of_text?_eq_none rfl, List.length_append]
    exact Nat.lt_succ_self _
  · rw [hpool.addConstant_full hroom]
    exact h.full _ (hpool.size_constants ▸ hroom)

theorem Structured.stringConstant (h : d.Structured source ps) (text : String) :
    (d.stringConstant text).2.Structured source ps ∧
      (d.stringConstant text).1.toNat < (d.stringConstant text).2.chunk.constants.size := by
  obtain ⟨pool, hpool⟩ := h.pool
  by_cases hfits : (pool.add (.text text)).length ≤ maxConstants
  · obtain ⟨interner, strings, constants, heq, hpool'⟩ := hpool.stringConstant_eq text hfits
    rw [heq]
    refine h.grow hpool hpool' (Pool.prefix_add pool _) ?_
    rw [← Pool.indexOf_add_text]
    exact Pool.indexOf_lt (Pool.mem_add_text pool text)
  · rw [hpool.stringConstant_full text hfits]
    have hintern : Structured source ps { d with interner := (d.interner.intern text).2 } := by
      obtain ⟨halong, -, code, hcode⟩ := h
      exact ⟨halong.of_eq rfl rfl rfl, ⟨pool, hpool.intern text⟩, code,
        hcode.of_le rfl rfl (Nat.le_refl _) (Nat.le_refl _) (List.Subset.refl ps)⟩
    refine hintern.full _ fun hroom => hfits ?_
    have hlength : d.chunk.constants.size = pool.length := hpool.size_constants
    exact (Pool.length_add_le pool _).trans (hlength ▸ hroom)

theorem Structured.emitLoop (h : d.Structured source ps) (target : Nat) :
    (d.emitLoop target).Structured source ps := by
  have hop : OpCode.loop.operand = .backward := rfl
  obtain ⟨distance, -, heq⟩ | heq := d.emitLoop_eq target <;> rw [heq]
  · exact h.emit _ (constant_of_operand hop (by decide))
  · exact (h.report _ _).emit _ (constant_of_operand hop (by decide))

theorem Structured.emitJump (h : d.Structured source ps) (hop : op.operand = .forward) :
    (d.emitJump op).2.Structured source (.jump (d.emitJump op).1 :: ps) := by
  obtain ⟨code, hcode⟩ := h.code
  have hemit := h.emit ⟨op, maxDistance⟩ (constant_of_operand hop (by decide))
  refine ⟨?_, ?_, _, hcode.emitJump h.along.line hop⟩ <;> rw [emitJump_eq hop]
  · exact hemit.along
  · exact hemit.pool

theorem Structured.emitIndex (h : d.Structured source ps) {index : UInt8}
    (hop : op.operand = .constant) (hindex : index.toNat < d.chunk.constants.size) :
    (d.emitOpByte op index).Structured source ps := by
  rw [emitOpByte_eq index (.inl hop)]
  exact h.emit _ fun _ => hindex

theorem Structured.emitText (h : d.Structured source (.text u :: ps)) (hop : op ∈ u.role.opCodes) :
    (d.emitOpByte op u.operand).Structured source ps := by
  obtain ⟨code, hcode⟩ := h.code
  exact (h.of_eq (List.subset_cons_self _ _) rfl rfl rfl rfl rfl rfl).emitIndex
    (Role.operand_of_mem op hop) (hcode.texts u List.mem_cons_self)

theorem Structured.patch (h : d.Structured source ps) {placeholder : Nat}
    (hmem : .jump placeholder ∈ ps) (distance : Nat) :
    Structured source ps { d with chunk := d.chunk.patch placeholder distance } := by
  obtain ⟨halong, ⟨pool, hpool⟩, code, hcode⟩ := h
  exact ⟨halong.of_eq rfl rfl rfl, ⟨pool, hpool.of_eq rfl rfl rfl⟩, hcode.patch hmem distance⟩

/-- What is skipped writes nothing. -/
theorem Structured.skip (h : d.Structured source ps) (count : Nat) : Structured source ps
    { Draft.advance^[count] (d.failAtPrevious .nestingTooDeep) with panicking := d.panicking } := by
  have hreport := h.report d.previous .nestingTooDeep
  have hpassed := Function.Iterate.rec (Structured source ps) hreport (fun _ h => h.advance) count
  exact hpassed.of_eq (List.Subset.refl ps) rfl rfl rfl rfl rfl rfl

/-- **Compiling keeps drafts structured.** -/
theorem maintained_structured (source : String) :
    Maintained fun _ ps d => d.Structured source ps where
  settle h := h
  forget h := h.of_eq (List.subset_cons_self _ _) rfl rfl rfl rfl rfl rfl
  advance h := h.advance
  failAtPrevious problem h _ := h.report _ problem
  failAtCurrent problem h _ := h.report _ problem
  emitOp op h hop := by
    rw [emitOp_eq hop]
    exact h.emit _ (constant_of_operand hop (by decide))
  emitSlot op slot h hop := by
    rw [emitOpByte_eq slot (.inr hop)]
    exact h.emit _ (constant_of_operand hop (by decide))
  emitNumber value h := (h.addNumber value).1.emitIndex rfl (h.addNumber value).2
  lookUp u h _ := (h.stringConstant u.text).1.pend (h.stringConstant u.text).2
  emitText _ h hop := h.emitText hop
  emitJump _ h hop := h.emitJump hop
  emitLoop target h := h.emitLoop target
  patch _ distance h hmem _ := h.patch hmem distance
  calm h := h.of_eq (List.Subset.refl _) rfl rfl rfl rfl rfl rfl
  skip count h := h.skip count
  stall h := h.of_eq (List.Subset.refl _) rfl rfl rfl rfl rfl rfl
  scope _ h := h.of_eq (List.Subset.refl _) rfl rfl rfl rfl rfl rfl

/-- At the start nothing is written. -/
theorem structured_start (source : String) (maxLocals : Nat) (interner : Interner) :
    (start source maxLocals interner).Structured source [] := by
  have halong := along_start source maxLocals interner
  obtain ⟨ahead, panicking, diagnostics, hstart, -⟩ := exists_start_eq source maxLocals interner
  rw [hstart] at halong ⊢
  exact ⟨halong, ⟨[], (hasPool_blank source maxLocals interner).of_eq rfl rfl rfl⟩, [],
    ⟨⟨rfl, rfl⟩, nofun, .nil, nofun, fun _ hmem => absurd hmem List.not_mem_nil,
      fun _ hmem => absurd hmem List.not_mem_nil⟩⟩

end Draft

/-! ### Chunks -/

variable {limits : Limits} {interner : Interner} {source : String} {c : Compilation}

/-- The line of the token just passed is one of the source. -/
theorem Draft.Along.line_le {d : Draft} (h : d.Along source) :
    d.previous.line ≤ 1 + source.toList.count '\n' :=
  Nat.le_trans (h.previous _ d.current_mem_upcoming).2 (line_le_of_mem_sourceTokens h.current_mem)

/-- **The chunk of every source is sound**, whatever is wrong with the source. -/
theorem compile_sound (hc : compile limits interner source = some c) :
    c.chunk.Sound (1 + source.toList.count '\n') := by
  obtain ⟨d, hd, rfl⟩ := (Draft.maintained_structured source).compile
    (Draft.structured_start source limits.locals interner) hc
  obtain ⟨code, hcode⟩ := hd.code
  obtain ⟨pool, hpool⟩ := hd.pool
  have hhalt := hcode.emit hd.along.line ⟨.halt, 0⟩
    (Draft.constant_of_operand (show OpCode.halt.operand = .none from rfl) (by decide))
  have hbytes : d.emitOp .halt = d.emit ⟨.halt, 0⟩ := Draft.emitOp_eq rfl
  rw [← hbytes] at hhalt
  refine ⟨hpool.size_constants ▸ hpool.bound, ⟨code, _, hhalt.consists, hcode.operands⟩,
    hhalt.consists.size_lines, hhalt.consists.pairwise_lines hhalt.sorted, fun line hline => ?_⟩
  obtain ⟨hlow, hhigh⟩ := hhalt.lines line (hhalt.consists.mem_lines hline)
  exact ⟨hlow, Nat.le_trans hhigh hd.along.line_le⟩

/-- A loop and an assignment, each with a problem. -/
theorem compile_sound_with_problems :
    ∃ c, compile {} .empty "var a = 1;\nwhile (a) \x7b print a @; \x7d\n\na = ;" = some c ∧
      c.isSuccess = false ∧ c.chunk.Sound 4 := by
  have hcompile : (compile {} .empty "var a = 1;\nwhile (a) \x7b print a @; \x7d\n\na = ;").any
      (·.isSuccess = false) = true := by decide +kernel
  obtain ⟨c, hc, hproblems⟩ := (Option.any_eq_true _ _).mp hcompile
  exact ⟨c, hc, of_decide_eq_true hproblems, compile_sound hc⟩

end Lox
