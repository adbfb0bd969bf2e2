import Lox.Proofs.Draft.Constants
import Lox.Proofs.Draft.Scopes

/-!
# Sketches of drafts

What compiling a piece of source does depends on a draft in a few respects only: the open scopes,
the constants so far, the bytes so far and the tokens ahead. A sketch is a list of these, and a
draft that matches a sketch has reported nothing yet.

A function from drafts to drafts is described by an outcome: if some condition holds then the result
matches a sketch, and if not then something has been reported. Outcomes compose, since what has been
reported stays so.

## Main definitions

* `Sketch`, `Draft.Matches`: what is known of a draft.
* `Draft.Meets`: an outcome.

## Main results

* `Meets.bind`: outcomes compose.
* `Matches.advance`, `Matches.patchJump`, `Matches.stringConstant` and their kin: the outcomes of the
  primitives that compiling is made of.
-/

namespace Lox

/-- What is known of a draft. -/
structure Sketch where
  limit : Nat
  scopes : Scopes
  /-- The local whose initial value is being compiled. -/
  pending : Option String
  pool : Pool
  code : List UInt8
  rest : List Token

namespace Sketch

variable (s : Sketch)

/-- The sketch after a piece of source, which has added constants and code and is followed by
`rest`. -/
def extend (constants : List Datum) (code : List Instruction) (rest : List Token) : Sketch :=
  { s with pool := s.pool.addAll constants, code := s.code ++ codeBytes code, rest }

end Sketch

/-- The kind of the first of some tokens, at the end of which the source ends. -/
def headKind : List Token → TokenKind
  | [] => .endOfSource
  | t :: _ => t.kind

@[simp] theorem headKind_nil : headKind [] = .endOfSource := rfl

@[simp] theorem headKind_cons (t : Token) (rest : List Token) : headKind (t :: rest) = t.kind := rfl

namespace Draft

/-- The draft has reported nothing and is what the sketch says. -/
structure Matches (d : Draft) (s : Sketch) : Prop where
  proper : d.Proper
  clean : d.Clean
  running : d.stalled = false
  scope : d.scope = .ofScopes s.limit s.scopes s.pending
  pool : d.HasPool s.pool
  code : d.chunk.code.toList = s.code
  ahead : d.ahead = s.rest

/-- If the condition holds the draft is as wanted, and if not then something has been reported. -/
def Meets (d : Draft) (condition : Prop) (wanted : Draft → Prop) : Prop :=
  (condition ∧ wanted d) ∨ (¬condition ∧ ¬d.Clean)

/-! ### Outcomes -/

section Outcomes

variable {d : Draft} {condition condition' : Prop} {wanted wanted' : Draft → Prop}

theorem Meets.of_wanted (h : wanted d) (hcondition : condition) : d.Meets condition wanted :=
  .inl ⟨hcondition, h⟩

theorem Meets.of_not_clean (h : ¬d.Clean) (hcondition : ¬condition) : d.Meets condition wanted :=
  .inr ⟨hcondition, h⟩

theorem Meets.congr (h : d.Meets condition wanted) (hcondition : condition ↔ condition')
    (hwanted : condition → wanted d → wanted' d) : d.Meets condition' wanted' := by
  rcases h with ⟨hc, hw⟩ | ⟨hc, hclean⟩
  · exact .inl ⟨hcondition.mp hc, hwanted hc hw⟩
  · exact .inr ⟨mt hcondition.mpr hc, hclean⟩

theorem Meets.of_iff (hcondition : condition ↔ condition') (h : d.Meets condition wanted) :
    d.Meets condition' wanted := h.congr hcondition fun _ => id

/-- **Outcomes compose.** What is done after a report takes steps, so the report stays. -/
theorem Meets.bind (h : d.Meets condition wanted) {f : Draft → Draft} (hsteps : ∀ d, Steps true d (f d))
    (hf : condition → wanted d → (f d).Meets condition' wanted') :
    (f d).Meets (condition ∧ condition') wanted' := by
  rcases h with ⟨hc, hw⟩ | ⟨hc, hclean⟩
  · exact (hf hc hw).congr (and_iff_right hc).symm fun _ => id
  · exact .inr ⟨fun hboth => hc hboth.1, mt (hsteps d).clean hclean⟩

theorem Meets.map (h : d.Meets condition wanted) {f : Draft → Draft} (hsteps : ∀ d, Steps true d (f d))
    (hf : condition → wanted d → wanted' (f d)) : (f d).Meets condition wanted' :=
  (h.bind hsteps fun hc hw => .of_wanted (hf hc hw) trivial).congr (and_iff_left trivial)
    fun _ => id

theorem Meets.of_condition (h : d.Meets condition wanted) (hcondition : condition) : wanted d := by
  rcases h with ⟨-, h⟩ | ⟨hnot, -⟩
  · exact h
  · exact absurd hcondition hnot

/-- A draft that has reported nothing has met the condition. -/
theorem Meets.of_clean (h : d.Meets condition wanted) (hclean : d.Clean) :
    condition ∧ wanted d := by
  rcases h with h | ⟨-, h⟩
  · exact h
  · exact absurd hclean h

end Outcomes

/-! ### Tokens -/

section Tokens

variable {d : Draft} {s : Sketch} {t : Token} {rest : List Token}

theorem Matches.current (h : d.Matches s) (hrest : s.rest = t :: rest) : d.current = t := by
  rw [Draft.current, h.ahead, hrest, List.headD_cons]

theorem Matches.current_kind (h : d.Matches s) : d.current.kind = headKind s.rest := by
  rw [Draft.current, h.ahead]
  cases s.rest with
  | nil => exact h.proper.last
  | cons t rest => rfl

theorem Matches.check (h : d.Matches s) (kind : TokenKind) :
    d.check kind = decide (headKind s.rest = kind) := by
  rw [Draft.check, h.current_kind]
  rfl

theorem Matches.pass (h : d.Matches s) : d.advance.Matches { s with rest := s.rest.tail } where
  proper := (Step.advance d).proper h.proper
  clean := by
    rw [h.proper.advance_eq]
    exact h.clean
  running := by
    rw [h.proper.advance_eq]
    exact h.running
  scope := by
    rw [h.proper.advance_eq]
    exact h.scope
  pool := by
    rw [h.proper.advance_eq]
    exact ⟨h.pool.constants, h.pool.strings, h.pool.table, h.pool.bound⟩
  code := by
    rw [h.proper.advance_eq]
    exact h.code
  ahead := by
    rw [h.proper.advance_eq]
    exact congrArg List.tail h.ahead

theorem Matches.advance (h : d.Matches s) (hrest : s.rest = t :: rest) :
    d.advance.Matches { s with rest } := by
  have hpass := h.pass
  rwa [hrest, List.tail_cons] at hpass

theorem Matches.previous_advance (h : d.Matches s) (hrest : s.rest = t :: rest) :
    d.advance.previous = t := by
  rw [Draft.previous_advance, h.current hrest]

theorem Matches.expect_eq (h : d.Matches s) {kind : TokenKind} (hkind : headKind s.rest = kind)
    (what : Expectation) : d.expect kind what = d.advance := by
  rw [expect, h.check, decide_eq_true hkind, if_pos rfl]

theorem Matches.expect (h : d.Matches s) (hrest : s.rest = t :: rest) {kind : TokenKind}
    (hkind : t.kind = kind) (what : Expectation) :
    (d.expect kind what).Matches { s with rest } := by
  rw [h.expect_eq (by rw [hrest, headKind_cons, hkind])]
  exact h.advance hrest

theorem Matches.not_clean_report (h : d.Matches s) (t : Token) (problem : Problem) :
    ¬(d.report t problem).Clean := h.proper.not_clean_report t problem

end Tokens

/-! ### Code -/

section Code

variable {d : Draft} {s : Sketch}

theorem Matches.size_eq (h : d.Matches s) : d.size = s.code.length := by
  rw [size, Chunk.size, ← h.code, Array.length_toList]

theorem Matches.emitByte (h : d.Matches s) (byte : UInt8) :
    (d.emitByte byte).Matches { s with code := s.code ++ [byte] } where
  proper := (Step.write d byte).proper h.proper
  clean := h.clean
  running := h.running
  scope := h.scope
  pool := ⟨h.pool.constants, h.pool.strings, h.pool.table, h.pool.bound⟩
  code := by
    show (d.chunk.code.push byte).toList = _
    rw [Array.toList_push, h.code]
  ahead := h.ahead

theorem Matches.emitOp (h : d.Matches s) (op : OpCode) :
    (d.emitOp op).Matches { s with code := s.code ++ [op.toByte] } := h.emitByte _

theorem Matches.emitOpByte (h : d.Matches s) (op : OpCode) (operand : UInt8) :
    (d.emitOpByte op operand).Matches { s with code := s.code ++ [op.toByte, operand] } := by
  have hboth := (h.emitOp op).emitByte operand
  rwa [List.append_assoc] at hboth

/-- Instructions without an operand are written one after the other. -/
theorem Matches.emitOps (h : d.Matches s) (ops : List OpCode)
    (hops : ∀ op ∈ ops, op.operand = .none) :
    (ops.foldl Draft.emitOp d).Matches
      { s with code := s.code ++ codeBytes (ops.map (⟨·, 0⟩)) } := by
  induction ops generalizing d s with
  | nil => simpa using h
  | cons op ops ih =>
    have hbytes : Instruction.bytes ⟨op, 0⟩ = [op.toByte] := by
      rw [Instruction.bytes, hops op (List.mem_cons_self ..)]
    have hrest := ih (h.emitOp op) fun other hmem => hops other (List.mem_cons_of_mem _ hmem)
    rw [List.append_assoc] at hrest
    rw [List.foldl_cons, List.map_cons, codeBytes_cons, hbytes]
    exact hrest

/-- A jump is written with a placeholder, which stands after the opcode. -/
theorem Matches.emitJump (h : d.Matches s) (op : OpCode) :
    (d.emitJump op).1 = s.code.length + 1 ∧
      (d.emitJump op).2.Matches { s with code := s.code ++ [op.toByte, 0xFF, 0xFF] } := by
  have hafter := ((h.emitOp op).emitByte 0xFF).emitByte 0xFF
  refine ⟨?_, ?_⟩
  · show Draft.size _ - 2 = _
    rw [hafter.size_eq]
    simp
  · rwa [List.append_assoc, List.append_assoc] at hafter

/-- The bytes of a jump over a number of bytes. -/
def jumpBytes (op : OpCode) (distance : Nat) : List UInt8 :=
  [op.toByte, Chunk.highByte distance, Chunk.lowByte distance]

/-- **Patching** makes a jump lead over the code written since, if the distance fits. -/
theorem Matches.patchJump (h : d.Matches s) {before after : List UInt8} {op : OpCode}
    (hcode : s.code = before ++ [op.toByte, 0xFF, 0xFF] ++ after) :
    (d.patchJump (before.length + 1)).Meets (after.length ≤ maxDistance)
      (·.Matches { s with code := before ++ jumpBytes op after.length ++ after }) := by
  have hdistance : d.size - (before.length + 1) - 2 = after.length := by
    rw [h.size_eq, hcode]
    simp
    omega
  rw [Draft.patchJump, hdistance]
  by_cases hfits : after.length ≤ maxDistance
  · rw [if_pos hfits]
    refine .of_wanted ?_ hfits
    refine ⟨(Step.patch d _ _).proper h.proper, h.clean, h.running, h.scope,
      ⟨h.pool.constants, h.pool.strings, h.pool.table, h.pool.bound⟩, ?_, h.ahead⟩
    have hplace : d.chunk.code.toList = (before ++ [op.toByte]) ++ 0xFF :: 0xFF :: after := by
      rw [h.code, hcode]
      simp
    have hpatch := Chunk.toList_code_patch hplace after.length
    rw [List.length_append, List.length_singleton] at hpatch
    rw [hpatch]
    simp [jumpBytes]
  · rw [if_neg hfits]
    exact .of_not_clean (h.not_clean_report _ _) hfits

/-- **Looping** back to an offset, if the distance fits. -/
theorem Matches.emitLoop (h : d.Matches s) {before body : List UInt8}
    (hcode : s.code = before ++ body) :
    (d.emitLoop before.length).Meets (body.length + 3 ≤ maxDistance)
      (·.Matches { s with code := s.code ++ jumpBytes .loop (body.length + 3) }) := by
  have hop := h.emitOp .loop
  have hdistance : (d.emitOp .loop).size - before.length + 2 = body.length + 3 := by
    rw [hop.size_eq, hcode]
    simp
  rw [Draft.emitLoop]
  simp only [hdistance]
  by_cases hfits : body.length + 3 ≤ maxDistance
  · rw [if_pos hfits]
    refine .of_wanted ?_ hfits
    have hafter := (hop.emitByte (Chunk.highByte (body.length + 3))).emitByte
      (Chunk.lowByte (body.length + 3))
    rwa [List.append_assoc, List.append_assoc] at hafter
  · rw [if_neg hfits]
    have hreport := hop.not_clean_report (d.emitOp .loop).previous .loopTooLarge
    have hsteps : Steps true _ _ := (steps_emitByte ((d.emitOp .loop).failAtPrevious .loopTooLarge) 0xFF).trans
      (steps_emitByte _ 0xFF)
    exact .of_not_clean (mt (Steps.clean hsteps) hreport) hfits

end Code

/-! ### Constants -/

section Constants

variable {d : Draft} {s : Sketch}

/-- The index of a string is that of its text, if there is room for it. -/
theorem Matches.stringConstant (h : d.Matches s) (text : String) :
    (d.stringConstant text).2.Meets ((s.pool.add (.text text)).length ≤ maxConstants) fun d' =>
      d'.Matches { s with pool := s.pool.add (.text text) } ∧ d'.previous = d.previous ∧
        (d.stringConstant text).1 = UInt8.ofNat (s.pool.indexOf text) := by
  by_cases hfits : (s.pool.add (.text text)).length ≤ maxConstants
  · obtain ⟨interner, strings, constants, heq, hpool⟩ := h.pool.stringConstant_eq text hfits
    rw [heq]
    have hproper := (steps_stringConstant d text).proper h.proper
    rw [heq] at hproper
    exact .of_wanted ⟨⟨hproper, h.clean, h.running, h.scope, hpool, h.code, h.ahead⟩, rfl, rfl⟩
      hfits
  · exact .of_not_clean (h.proper.stringConstant_not_clean h.pool text hfits) hfits

/-- A number gets the next place in the pool, if there is one. -/
theorem Matches.emitNumber (h : d.Matches s) (x : Float) :
    (d.emitConstant (.number x)).Meets ((s.pool.add (.number x)).length ≤ maxConstants)
      (·.Matches { s with
        pool := s.pool.add (.number x)
        code := s.code ++ codeBytes [⟨.constant, s.pool.length⟩] }) := by
  have hlength : (s.pool.add (.number x)).length = s.pool.length + 1 := List.length_append ..
  rw [hlength]
  by_cases hroom : s.pool.length < maxConstants
  · refine .of_wanted ?_ hroom
    rw [h.pool.emitConstant_eq hroom]
    have hpush : Matches { d with chunk := d.chunk.addConstant (.number x) }
        { s with pool := s.pool.add (.number x) } :=
      ⟨(Step.constant d _).proper h.proper, h.clean, h.running, h.scope,
        h.pool.push hroom (.number x) rfl, h.code, h.ahead⟩
    exact hpush.emitOpByte .constant (UInt8.ofNat s.pool.length)
  · exact .of_not_clean (h.proper.emitConstant_not_clean h.pool hroom _) hroom

end Constants

/-! ### Scopes -/

section Scopes

variable {d : Draft} {s : Sketch}

theorem Matches.setScope (h : d.Matches s) {scopes : Scopes} {pending : Option String}
    {scope : LocalScope} (hscope : scope = .ofScopes s.limit scopes pending) :
    Matches { d with scope } { s with scopes, pending } where
  proper := (Step.scope d scope).proper h.proper
  clean := h.clean
  running := h.running
  scope := hscope
  pool := ⟨h.pool.constants, h.pool.strings, h.pool.table, h.pool.bound⟩
  code := h.code
  ahead := h.ahead

theorem Matches.beginScope (h : d.Matches s) (hpending : s.pending = none) :
    d.beginScope.Matches { s with scopes := [] :: s.scopes } := by
  have hscope := h.scope
  rw [hpending] at hscope
  have hafter : Matches { d with scope := d.scope.enter }
      { s with scopes := [] :: s.scopes, pending := none } :=
    h.setScope (by rw [hscope, LocalScope.enter_ofScopes])
  rwa [← hpending] at hafter

theorem Matches.emitPops (h : d.Matches s) (n : Nat) :
    (Nat.repeat (Draft.emitOp · .pop) n d).Matches
      { s with code := s.code ++ codeBytes (List.replicate n ⟨.pop, 0⟩) } := by
  induction n with
  | zero => simpa [Nat.repeat] using h
  | succ n ih =>
    have hafter := ih.emitOp .pop
    rw [List.append_assoc] at hafter
    rw [List.replicate_succ', codeBytes_append]
    exact hafter

/-- **Closing a scope** drops its locals. -/
theorem Matches.endScope (h : d.Matches s) (hpending : s.pending = none) {scope : List String}
    {outer : Lox.Scopes} (hscopes : s.scopes = scope :: outer) :
    d.endScope.Matches { s with
      scopes := outer
      code := s.code ++ codeBytes (dropLocals s.scopes) } := by
  have hscope := h.scope
  rw [hpending, hscopes] at hscope
  have hleave : d.scope.leave = .ofScopes s.limit outer none := by
    rw [hscope, LocalScope.leave_ofScopes]
  have hcount : d.scope.size - d.scope.leave.size = s.scopes.innermostSize := by
    rw [hleave, hscope, LocalScope.size_ofScopes, LocalScope.size_ofScopes, hscopes]
    simp [Scopes.names, Scopes.innermostSize]
  have hafter := (@Matches.setScope d s h outer none d.scope.leave hleave).emitPops
    s.scopes.innermostSize
  rw [Draft.endScope]
  simp only [hcount]
  rw [← hpending] at hafter
  exact hafter

/-- **Declaring a local** that the innermost scope does not have, if there is room for it. -/
theorem Matches.declareLocal (h : d.Matches s) (hpending : s.pending = none) {scope : List String}
    {outer : Lox.Scopes} (hscopes : s.scopes = scope :: outer) (name : String) :
    (d.declareLocal name).Meets (name ∉ scope ∧ s.scopes.names.length < s.limit)
      (·.Matches { s with pending := some name }) := by
  have hscope := h.scope
  rw [hpending, hscopes] at hscope
  rw [Draft.declareLocal, hscope, LocalScope.declare_ofScopes, ← hscopes]
  by_cases hmem : name ∈ scope
  · rw [if_pos hmem]
    exact .of_not_clean (h.not_clean_report _ _) fun hboth => hboth.1 hmem
  rw [if_neg hmem]
  by_cases hlimit : s.limit ≤ s.scopes.names.length
  · rw [if_pos hlimit]
    exact .of_not_clean (h.not_clean_report _ _) fun hboth =>
      Nat.not_lt_of_le hlimit hboth.2
  rw [if_neg hlimit]
  exact .of_wanted (h.setScope rfl) ⟨hmem, Nat.lt_of_not_le hlimit⟩

theorem Matches.completeLocal (h : d.Matches s) {name : String} (hpending : s.pending = some name)
    {scope : List String} {outer : Lox.Scopes} (hscopes : s.scopes = scope :: outer) :
    d.completeLocal.Matches { s with scopes := s.scopes.declare name, pending := none } := by
  have hscope := h.scope
  rw [hpending, hscopes] at hscope
  rw [hscopes]
  exact h.setScope (by rw [hscope, LocalScope.complete_ofScopes]; rfl)

end Scopes

end Draft

end Lox
