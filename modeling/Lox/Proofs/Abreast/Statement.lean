import Lox.Compilation
import Lox.Proofs.Abreast.Expression

/-!
# Compiling statements without faults side by side

A relation that `Abreast` describes is kept by statements, declarations and whole sources. Where more
levels of nesting are left on one side, only the other side can find that something is nested too
deeply; then something is wrong there, and nothing is left to show.

## Main results

* `Abreast.statement`: compiling a statement keeps the relation.
* `Abreast.source`: compiling a whole source keeps the relation.
-/

namespace Lox

namespace Draft

namespace Abreast

variable {Rel : Draft → Draft → Prop} {Byte : UInt8 → UInt8 → Prop} (h : Abreast Rel Byte)
  {levels levels' : Nat} (hlevels : levels ≤ levels')

include h

/-! ### Scopes and recovery -/

theorem declaring : Tracks Rel (fun d => d.declareLocal d.previous.lexeme)
    (fun d => d.declareLocal d.previous.lexeme) where
  left d := steps_declareLocal d _
  right d := steps_declareLocal d _
  keeps := h.declareLocal

theorem completing : Tracks Rel Draft.completeLocal Draft.completeLocal where
  left := steps_completeLocal
  right := steps_completeLocal
  keeps hd _ _ := h.completeLocal hd

theorem entering : Tracks Rel Draft.beginScope Draft.beginScope where
  left := steps_beginScope
  right := steps_beginScope
  keeps hd _ _ := h.beginScope hd

theorem pops (count : Nat) : Tracks Rel (Nat.repeat (Draft.emitOp · .pop) count)
    (Nat.repeat (Draft.emitOp · .pop) count) := by
  induction count with
  | zero => exact .id
  | succ count ih => exact ih.andThen (h.emitOp .pop)

theorem endScope : Tracks Rel Draft.endScope Draft.endScope := by
  have hleave : ∀ count, Tracks Rel
      (fun d => Nat.repeat (Draft.emitOp · .pop) count { d with scope := d.scope.leave })
      (fun d => Nat.repeat (Draft.emitOp · .pop) count { d with scope := d.scope.leave }) :=
    fun count => Tracks.andThen ⟨fun d => (Step.scope d _).steps, fun d => (Step.scope d _).steps,
      fun hd _ _ => (h.leave hd).2⟩ (h.pops count)
  exact Tracks.byKey (fun d => d.scope.size - d.scope.leave.size) (fun _ _ hd => (h.leave hd).1) hleave

/-- Where nothing is wrong there is nothing to recover from. -/
theorem recovery : Tracks Rel (fun d => if d.panicking then d.synchronize else d)
    (fun d => if d.panicking then d.synchronize else d) where
  left d := steps_recovery d
  right d := steps_recovery d
  keeps hd _ _ := by
    rw [(h.calm hd).1, (h.calm hd).2]
    exact hd

/-! ### Statements without a body -/

section Plain

include hlevels

theorem expression : Tracks Rel (Draft.expression levels) (Draft.expression levels') :=
  h.expressionAt hlevels .assignment

theorem expressionStatement :
    Tracks Rel (·.expressionStatement levels) (·.expressionStatement levels') :=
  ((h.expression hlevels).andThen (h.expect _ _)).andThen (h.emitOp _)

theorem printStatement : Tracks Rel (·.printStatement levels) (·.printStatement levels') :=
  ((h.expression hlevels).andThen (h.expect _ _)).andThen (h.emitOp _)

theorem initialValue : Tracks Rel (·.initialValue levels) (·.initialValue levels') :=
  (h.ifCheck .equal (h.pass.andThen (h.expression hlevels)) (h.emitOp _)).andThen (h.expect _ _)

theorem varDeclaration : Tracks Rel (·.varDeclaration levels) (·.varDeclaration levels') := by
  have hglobal : Tracks Rel
      (fun d => ((d.stringConstant d.previous.lexeme).2.initialValue levels).emitOpByte .defineGlobal
        (d.stringConstant d.previous.lexeme).1)
      (fun d => ((d.stringConstant d.previous.lexeme).2.initialValue levels').emitOpByte
        .defineGlobal (d.stringConstant d.previous.lexeme).1) := by
    have hdefine : ∀ {index index'}, Byte index index' →
        Tracks Rel (fun d => (d.initialValue levels).emitOpByte .defineGlobal index)
          (fun d => (d.initialValue levels').emitOpByte .defineGlobal index') := fun hindex =>
      (h.initialValue hlevels).andThen (h.emitOpByte (h.byte _) hindex)
    exact h.text (fun name => name) hdefine
  have hlocal : Tracks Rel
      (fun d => ((d.declareLocal d.previous.lexeme).initialValue levels).completeLocal)
      (fun d => ((d.declareLocal d.previous.lexeme).initialValue levels').completeLocal) :=
    (h.declaring.andThen (h.initialValue hlevels)).andThen h.completing
  have hboth : ∀ isGlobal : Bool, Tracks Rel
      (fun d => if isGlobal
        then ((d.stringConstant d.previous.lexeme).2.initialValue levels).emitOpByte .defineGlobal
          (d.stringConstant d.previous.lexeme).1
        else ((d.declareLocal d.previous.lexeme).initialValue levels).completeLocal)
      (fun d => if isGlobal
        then ((d.stringConstant d.previous.lexeme).2.initialValue levels').emitOpByte .defineGlobal
          (d.stringConstant d.previous.lexeme).1
        else ((d.declareLocal d.previous.lexeme).initialValue levels').completeLocal) := by
    intro isGlobal
    cases isGlobal with
    | false => exact hlocal
    | true => exact hglobal
  exact (h.expect .identifier .variableName).andThen
    (Tracks.byKey (fun d => d.scope.isGlobal) (fun _ _ hd => h.isGlobal hd) hboth)

end Plain

/-! ### What is nested too deeply -/

/-- What is skipped is reported. -/
theorem not_faultless_skip {pass : Draft → Draft} (hpass : ∀ d, Steps true d (pass d)) {d d' : Draft}
    (hd : Rel d d') : ¬(d.skip pass).Faultless := fun hfault =>
  h.not_faultless_report hd d.previous .nestingTooDeep
    ((hpass (d.failAtPrevious .nestingTooDeep)).faultless ⟨hfault.clean, hfault.running⟩)

theorem skipBlock {f' : Draft → Draft} (hf' : ∀ d, Steps true d (f' d)) :
    Tracks Rel Draft.skipBlock f' :=
  .of_not_faultless steps_skipBlock hf' fun hd =>
    h.not_faultless_skip (fun d => steps_passBlock d _ _) hd

theorem skipStatement {f' : Draft → Draft} (hf' : ∀ d, Steps true d (f' d)) :
    Tracks Rel Draft.skipStatement f' :=
  .of_not_faultless steps_skipStatement hf' fun hd =>
    h.not_faultless_skip (fun d => steps_passStatement d _ _ _) hd

/-! ### Statements with a body -/

section Bodies

variable {body body' : Draft → Draft} (hbody : Tracks Rel body body')

include hlevels hbody

omit hbody in
/-- A condition in parentheses, and the jump taken if it is falsey. -/
theorem condition (opening : Expectation) {f f' : Nat → Draft → Draft}
    (hf : ∀ place, Tracks Rel (f place) (f' place)) :
    Tracks Rel
      (fun d =>
        let jump := (((d.expect .leftParen opening).expression levels).expect .rightParen
          .closeCondition).emitJump .jumpIfFalse
        f jump.1 (jump.2.emitOp .pop))
      (fun d =>
        let jump := (((d.expect .leftParen opening).expression levels').expect .rightParen
          .closeCondition).emitJump .jumpIfFalse
        f' jump.1 (jump.2.emitOp .pop)) := by
  have hjump : ∀ place, Tracks Rel (fun d => f place (d.emitOp .pop))
      (fun d => f' place (d.emitOp .pop)) := fun place => (h.emitOp .pop).andThen (hf place)
  exact (((h.expect _ _).andThen (h.expression hlevels)).andThen (h.expect _ _)).andThen
    (h.jump .jumpIfFalse hjump)

theorem ifStatement : Tracks Rel (·.ifStatement levels body) (·.ifStatement levels' body') := by
  have hbranches : ∀ other done, Tracks Rel
      (fun d =>
        let d := (d.patchJump other).emitOp .pop
        (if d.check .kwElse then body d.advance else d).patchJump done)
      (fun d =>
        let d := (d.patchJump other).emitOp .pop
        (if d.check .kwElse then body' d.advance else d).patchJump done) := fun other done =>
    (((h.patchJump other).andThen (h.emitOp .pop)).andThen
      (h.ifCheck .kwElse (h.pass.andThen hbody) .id)).andThen (h.patchJump done)
  exact h.condition hlevels .openIf fun other => hbody.andThen (h.jump .jump (hbranches other))

theorem whileStatement :
    Tracks Rel (·.whileStatement levels body) (·.whileStatement levels' body') := by
  have hloop : ∀ again done, Tracks Rel
      (fun d => (((body d).emitLoop again).patchJump done).emitOp .pop)
      (fun d => (((body' d).emitLoop again).patchJump done).emitOp .pop) := fun again done =>
    ((hbody.andThen (h.emitLoop again)).andThen (h.patchJump done)).andThen (h.emitOp .pop)
  exact Tracks.byKey Draft.size (fun _ _ hd => h.size hd) fun again =>
    h.condition hlevels .openWhile (hloop again)

omit hbody in
theorem forInitial : Tracks Rel (·.forInitial levels) (·.forInitial levels') :=
  h.ifCheck .semicolon h.pass (h.ifCheck .kwVar (h.pass.andThen (h.varDeclaration hlevels))
    (h.expressionStatement hlevels))

omit hbody in
/-- What is done after the condition of a for statement knows where the jump out of the loop is. -/
theorem forCondition {f f' : Option Nat → Draft → Draft}
    (hf : ∀ done, Tracks Rel (f done) (f' done)) :
    Tracks Rel (fun d => f (d.forCondition levels).1 (d.forCondition levels).2)
      (fun d => f' (d.forCondition levels').1 (d.forCondition levels').2) := by
  have hjump : ∀ place, Tracks Rel (fun d => f (some place) (d.emitOp .pop))
      (fun d => f' (some place) (d.emitOp .pop)) := fun place => (h.emitOp .pop).andThen (hf _)
  have hcondition := ((h.expression hlevels).andThen (h.expect .semicolon .endOfLoopCondition)).andThen
    (h.jump .jumpIfFalse hjump)
  refine Tracks.of_key (·.check .semicolon) (fun _ _ hd => h.check hd _) fun found => ?_
  cases found with
  | false =>
    exact ⟨_, _, hcondition, fun d hd => by rw [Draft.forCondition, Draft.forCondition]; simp [hd]⟩
  | true =>
    exact ⟨_, _, h.pass.andThen (hf none), fun d hd => by
      rw [Draft.forCondition, Draft.forCondition]; simp [hd]⟩

omit hbody in
/-- What is done after the last clause of a for statement knows where the body jumps back to. -/
theorem forIncrement (start : Nat) {f f' : Nat → Draft → Draft}
    (hf : ∀ again, Tracks Rel (f again) (f' again)) :
    Tracks Rel (fun d => f (d.forIncrement levels start).1 (d.forIncrement levels start).2)
      (fun d => f' (d.forIncrement levels' start).1 (d.forIncrement levels' start).2) := by
  have hjump : ∀ place again, Tracks Rel
      (fun d => f again ((((((d.expression levels).emitOp .pop).expect .rightParen
        .closeFor).emitLoop start)).patchJump place))
      (fun d => f' again ((((((d.expression levels').emitOp .pop).expect .rightParen
        .closeFor).emitLoop start)).patchJump place)) := fun place again =>
    (((((h.expression hlevels).andThen (h.emitOp .pop)).andThen (h.expect _ _)).andThen
      (h.emitLoop start)).andThen (h.patchJump place)).andThen (hf again)
  have hincrement := h.jump .jump fun place =>
    Tracks.byKey Draft.size (fun _ _ hd => h.size hd) (hjump place)
  refine Tracks.of_key (·.check .rightParen) (fun _ _ hd => h.check hd _) fun found => ?_
  cases found with
  | false =>
    exact ⟨_, _, hincrement, fun d hd => by rw [Draft.forIncrement, Draft.forIncrement]; simp [hd]⟩
  | true =>
    exact ⟨_, _, h.pass.andThen (hf start), fun d hd => by
      rw [Draft.forIncrement, Draft.forIncrement]; simp [hd]⟩

omit hlevels hbody in
/-- The jump out of a loop, if there is one, leads behind the loop. -/
theorem leaveLoop (done : Option Nat) :
    Tracks Rel
      (fun d => match done with
        | some done => (d.patchJump done).emitOp .pop
        | none => d)
      (fun d => match done with
        | some done => (d.patchJump done).emitOp .pop
        | none => d) := by
  cases done with
  | none => exact .id
  | some done => exact (h.patchJump done).andThen (h.emitOp .pop)

theorem forStatement : Tracks Rel (·.forStatement levels body) (·.forStatement levels' body') := by
  have hend := fun done again =>
    ((hbody.andThen (h.emitLoop again)).andThen (h.leaveLoop done)).andThen h.endScope
  exact ((h.entering.andThen (h.expect .leftParen .openFor)).andThen (h.forInitial hlevels)).andThen
    (Tracks.byKey Draft.size (fun _ _ hd => h.size hd) fun start =>
      h.forCondition hlevels fun done => h.forIncrement hlevels start (hend done))

theorem declaration : Tracks Rel (·.declaration levels body) (·.declaration levels' body') :=
  (h.ifCheck .kwVar (h.pass.andThen (h.varDeclaration hlevels)) hbody).andThen h.recovery

end Bodies

/-! ### Blocks and statements -/

omit h in
/-- An endless sequence of declarations is something wrong. -/
theorem stall :
    Tracks Rel (fun d => { d with stalled := true }) (fun d => { d with stalled := true }) :=
  .of_not_faultless (fun d => (Step.stall d rfl).steps) (fun d => (Step.stall d rfl).steps)
    fun _ hfault => Bool.noConfusion hfault.running

theorem declarations {compile compile' : Draft → Draft} (hcompile : Tracks Rel compile compile')
    (closing : TokenKind) {bound bound' : List Token} (hbound : bound.length = bound'.length) :
    Tracks Rel (Draft.declarations compile closing bound)
      (Draft.declarations compile' closing bound') := by
  have hends : ∀ d d', Rel d d' → (d.stalled || d.check closing || d.check .endOfSource) =
      (d'.stalled || d'.check closing || d'.check .endOfSource) := by
    intro d d' hd
    rw [(h.running hd).1, (h.running hd).2, h.check hd, h.check hd]
  induction bound generalizing bound' with
  | nil =>
    obtain rfl := List.eq_nil_of_length_eq_zero hbound.symm
    refine Tracks.of_key _ hends fun ends => ?_
    cases ends with
    | false => exact ⟨_, _, stall, fun d hd => by
        rw [Draft.declarations, Draft.declarations, hd]; exact ⟨rfl, rfl⟩⟩
    | true => exact ⟨_, _, .id, fun d hd => by
        rw [Draft.declarations, Draft.declarations, hd]; exact ⟨rfl, rfl⟩⟩
  | cons t bound ih =>
    obtain ⟨t', bound', rfl⟩ := List.exists_cons_of_length_eq_add_one hbound.symm
    refine Tracks.of_key _ hends fun ends => ?_
    cases ends with
    | false => exact ⟨_, _, hcompile.andThen (ih (Nat.succ.inj hbound)), fun d hd => by
        rw [Draft.declarations, Draft.declarations, hd]; exact ⟨rfl, rfl⟩⟩
    | true => exact ⟨_, _, .id, fun d hd => by
        rw [Draft.declarations, Draft.declarations, hd]; exact ⟨rfl, rfl⟩⟩

/-- The tokens ahead bound the number of declarations. -/
theorem allDeclarations {compile compile' : Draft → Draft} (hcompile : Tracks Rel compile compile')
    (closing : TokenKind) : Tracks Rel (fun d => Draft.declarations compile closing d.ahead d)
      (fun d => Draft.declarations compile' closing d.ahead d) where
  left d := steps_declarations d hcompile.left closing _
  right d := steps_declarations d hcompile.right closing _
  keeps hd := (h.declarations hcompile closing (h.ahead hd)).keeps hd

include hlevels in
theorem block {body body' : Draft → Draft} (hbody : Tracks Rel body body') :
    Tracks Rel (·.block levels body) (·.block levels' body') :=
  (h.allDeclarations (h.declaration hlevels hbody) .rightBrace).andThen (h.expect _ _)

section Nested

/-! Where no level is left on the first side, nothing is known of the statements inside a
statement. -/

variable {body body' : Draft → Draft} (hsteps : ∀ d, Steps true d (body' d))
  (hbody : 0 < levels → Tracks Rel body body')

include hlevels hsteps hbody

/-- A block is skipped on the first side, or compiled on both. -/
theorem blockOrSkip :
    Tracks Rel (fun d => if levels = 0 then d.skipBlock else d.block (levels - 1) body)
      (fun d => if levels' = 0 then d.skipBlock else d.block (levels' - 1) body') := by
  have hright : ∀ d, Steps true d
      (if levels' = 0 then d.skipBlock else d.block (levels' - 1) body') := by
    intro d
    split
    · exact steps_skipBlock d
    · exact steps_block d _ hsteps
  rcases Nat.eq_zero_or_pos levels with rfl | hpos
  · exact h.skipBlock hright
  · simp only [if_neg (Nat.ne_of_gt hpos), if_neg (Nat.ne_of_gt (Nat.lt_of_lt_of_le hpos hlevels))]
    exact h.block (Nat.sub_le_sub_right hlevels 1) (hbody hpos)

omit hsteps in
/-- A statement with a body is skipped on the first side, or compiled on both. -/
theorem nestedOrSkip {compile : Nat → (Draft → Draft) → Draft → Draft}
    (hsteps : ∀ levels d, Steps true d (compile levels body' d))
    (hcompile : Tracks Rel body body' → ∀ {levels levels' : Nat}, levels ≤ levels' →
      Tracks Rel (compile levels body) (compile levels' body')) :
    Tracks Rel (fun d => if levels ≤ 1 then d.skipStatement else compile (levels - 1) body d)
      (fun d => if levels' ≤ 1 then d.skipStatement else compile (levels' - 1) body' d) := by
  have hright : ∀ d, Steps true d
      (if levels' ≤ 1 then d.skipStatement else compile (levels' - 1) body' d) := by
    intro d
    split
    · exact steps_skipStatement d
    · exact hsteps _ d
  by_cases hle : levels ≤ 1
  · simp only [if_pos hle]
    exact h.skipStatement hright
  · have hle' : ¬levels' ≤ 1 := fun hle' => hle (Nat.le_trans hlevels hle')
    simp only [if_neg hle, if_neg hle']
    exact hcompile (hbody (by omega)) (Nat.sub_le_sub_right hlevels 1)

theorem statementWith :
    Tracks Rel (·.statementWith levels body) (·.statementWith levels' body') := by
  refine Tracks.of_key (·.current.kind) (fun _ _ hd => h.current hd) fun kind => ?_
  by_cases hkind : kind ∈ [TokenKind.kwPrint, .kwIf, .kwWhile, .kwFor, .leftBrace]
  · simp only [List.mem_cons, List.not_mem_nil, or_false] at hkind
    rcases hkind with rfl | rfl | rfl | rfl | rfl
    · exact ⟨_, _, h.pass.andThen (h.printStatement hlevels), fun d hd => by
        rw [Draft.statementWith, Draft.statementWith, hd]; exact ⟨rfl, rfl⟩⟩
    · exact ⟨_, _, h.pass.andThen (h.nestedOrSkip hlevels hbody
        (fun levels d => steps_ifStatement d levels hsteps)
        fun hbody _ _ hle => h.ifStatement hle hbody),
        fun d hd => by rw [Draft.statementWith, Draft.statementWith, hd]; exact ⟨rfl, rfl⟩⟩
    · exact ⟨_, _, h.pass.andThen (h.nestedOrSkip hlevels hbody
        (fun levels d => steps_whileStatement d levels hsteps)
        fun hbody _ _ hle => h.whileStatement hle hbody),
        fun d hd => by rw [Draft.statementWith, Draft.statementWith, hd]; exact ⟨rfl, rfl⟩⟩
    · exact ⟨_, _, h.pass.andThen (h.nestedOrSkip hlevels hbody
        (fun levels d => steps_forStatement d levels hsteps)
        fun hbody _ _ hle => h.forStatement hle hbody),
        fun d hd => by rw [Draft.statementWith, Draft.statementWith, hd]; exact ⟨rfl, rfl⟩⟩
    · exact ⟨_, _, ((h.pass.andThen h.entering).andThen (h.blockOrSkip hlevels hsteps hbody)).andThen
        h.endScope, fun d hd => by
          rw [Draft.statementWith, Draft.statementWith, hd]; exact ⟨rfl, rfl⟩⟩
  · exact ⟨_, _, h.expressionStatement hlevels, fun d hd =>
      ⟨statementWith_eq_expressionStatement d levels (hd ▸ hkind),
        statementWith_eq_expressionStatement d levels' (hd ▸ hkind)⟩⟩

end Nested

include hlevels in
/-- **Compiling a statement** keeps the relation, also where more levels of nesting are left. -/
theorem statement : Tracks Rel (Draft.statement levels) (Draft.statement levels') := by
  induction levels generalizing levels' with
  | zero =>
    cases levels' with
    | zero => exact h.statementWith hlevels (fun _ => .refl) nofun
    | succ levels' => exact h.statementWith hlevels (steps_statement · levels') nofun
  | succ levels ih =>
    obtain ⟨levels', rfl⟩ := Nat.exists_eq_succ_of_ne_zero
      (Nat.ne_of_gt (Nat.lt_of_lt_of_le (Nat.succ_pos _) hlevels))
    exact h.statementWith hlevels (steps_statement · levels')
      fun _ => ih (Nat.le_of_succ_le_succ hlevels)

/-- **Compiling a whole source** keeps the relation. -/
theorem source {limits limits' : Limits} (hnesting : limits.nesting ≤ limits'.nesting)
    {interner interner' : Interner} {source source' : String}
    (hstart : Rel (start source limits.locals interner) (start source' limits'.locals interner'))
    (hfault : (ofSource limits interner source).Faultless)
    (hfault' : (ofSource limits' interner' source').Faultless) :
    Rel (ofSource limits interner source) (ofSource limits' interner' source') :=
  (((h.allDeclarations (h.declaration hnesting (h.statement hnesting)) .endOfSource).andThen
    h.pass).andThen (h.emitOp .halt)).keeps hstart hfault hfault'

end Abreast

end Draft

end Lox
