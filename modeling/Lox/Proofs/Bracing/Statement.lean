import Lox.Proofs.Bracing.Expression

/-!
# Statements inside their stretches

A statement without a body and the recovery behind it do not leave the stretch, if a problem is
sheltered. A statement with a body has passed its first word, so that in its clauses every problem is
exposed; where one is found, nothing more is claimed, and where none is, the statement has been
compiled in order. So braces are passed by blocks only, and each block passes its two.

## Main definitions

* `Draft.Outset`: between statements.
* `Draft.Finished`: behind a statement, before recovery.

## Main results

* `Draft.Unexcused.recovery`: recovery stays in its stretch.
* `Draft.Unexcused.block`: a block is closed by its own brace.
* `Draft.Unexcused.statement`, `Draft.Unexcused.declarations`: statements and declarations.
-/

namespace Lox

namespace Draft

/-- Between statements nothing is wrong, unless that has been reported and recovered from. -/
structure Outset (source : String) (n : Nat) (worded : Bool) (d : Draft) : Prop extends
    Tracked source n worded d where
  still : d.panicking = false

/-- Behind a statement the draft is in its stretch, or behind a brace or a word of a statement with
a body. -/
def Finished (source : String) (n : Nat) (worded : Bool) (d : Draft) : Prop :=
  Within source n worded false d ∨ Concluded source n d

/-- A function compiles statements wherever they start, also behind the words of a statement with a
body. -/
def Steady (source : String) (body : Draft → Draft) : Prop :=
  ∀ {n worded d}, Unexcused source (Outset source n worded) d →
    Unexcused source (Finished source n worded) (body d)

variable {source : String} {n : Nat} {worded live : Bool} {d : Draft}

theorem Outset.ready (h : Outset source n worded d) : Ready source n worded d :=
  ⟨h.toTracked, fun hpanic => absurd hpanic (Bool.eq_false_iff.mp h.still)⟩

theorem Within.outset (h : Within source n true live d) : Outset source n true d :=
  ⟨h.toTracked, h.calm rfl⟩

theorem Concluded.outset (h : Concluded source n d) : Outset source n false d :=
  ⟨h.toTracked, h.still⟩

theorem Finished.within (h : Finished source n false d) : Within source n false false d :=
  h.elim id Concluded.within

theorem Finished.concluded (h : Finished source n true d) : Concluded source n d :=
  h.elim Within.concluded id

namespace Unexcused

/-! ### Statements without a body -/

theorem expressionStatement (hd : Unexcused source (Ready source n worded) d) (levels : Nat) :
    Unexcused source (Within source n worded false) (d.expressionStatement levels) :=
  kept_within.emitOp
    ((hd.expression levels).expect .semicolon .endOfExpression rfl rfl
      (absurd · Bool.false_ne_true)) .pop

theorem printStatement (hd : Unexcused source (Within source n worded true) d) (levels : Nat) :
    Unexcused source (Within source n worded false) (d.printStatement levels) :=
  kept_within.emitOp (((hd.imp Within.ready).expression levels).expect .semicolon .endOfPrint rfl
    rfl (absurd · Bool.false_ne_true)) .print

theorem initialValue (hd : Unexcused source (Within source n worded true) d) (levels : Nat) :
    Unexcused source (Within source n worded false) (d.initialValue levels) := by
  rw [Draft.initialValue]
  refine Unexcused.expect ?_ .semicolon .endOfVariable rfl rfl (absurd · Bool.false_ne_true)
  split
  · next hcheck =>
    have hpassed : Unexcused source (Within source n worded true) d.advance :=
      (hd.imp Within.toTracked).passChecked hcheck rfl fun _ => by decide
    exact (hpassed.imp Within.ready).expression levels
  · exact (kept_within.emitOp hd .nil).imp Within.weaken

theorem varDeclaration (hd : Unexcused source (Within source n worded true) d) (levels : Nat) :
    Unexcused source (Within source n worded false) (d.varDeclaration levels) := by
  have hname : Unexcused source (Within source n worded true)
      (d.expect .identifier .variableName) := hd.expect _ _ rfl rfl fun _ => by decide
  rw [Draft.varDeclaration]
  simp only
  split
  · exact kept_within.emitOpByte ((kept_within.stringConstant hname _).initialValue levels) _ _
  · exact kept_within.setScope ((kept_within.declareLocal hname _).initialValue levels) _

end Unexcused

/-! ### Recovery and skipping -/

/-- Recovery passes tokens of the stretch up to the semicolon at its end, at most. -/
theorem Outset.seekFooting (h : Outset source n false d)
    (hconfined : (stretchEnd d.previous d.upcoming).kind = .semicolon) (bound : List Token) :
    Outset source n false (Draft.seekFooting bound d) := by
  induction bound generalizing d with
  | nil => exact h
  | cons t bound ih =>
    rw [Draft.seekFooting]
    split
    · exact h
    · next hgo =>
      have hprevious : d.previous.kind ≠ .semicolon := fun hkind => hgo (by simp [hkind])
      have hinner := isInner_of_stretchEnd hconfined hprevious
      have hpassed : Within source n false false d.advance :=
        h.toTracked.advance hinner (absurd · Bool.false_ne_true) (absurd · Bool.false_ne_true)
      refine ih ⟨hpassed.toTracked, ?_⟩ ((h.proper.stretchEnd_advance hinner) ▸ hconfined)
      rw [h.proper.advance_eq, h.still]

/-- **Recovery stays in its stretch.** -/
theorem Unexcused.recovery (hd : Unexcused source (Within source n false live) d) :
    Unexcused source (Outset source n false) (if d.panicking then d.synchronize else d) := by
  refine hd.step (steps_recovery d) fun hd _ => ?_
  split
  · next hpanic =>
    have hcalm : Outset source n false { d with panicking := false } :=
      ⟨⟨⟨hd.proper.last, hd.proper.ahead, nofun⟩, hd.unalarmed, hd.surplus, hd.place, nofun,
        nofun⟩, rfl⟩
    exact hcalm.seekFooting (hd.confined hpanic) _
  · next hpanic => exact ⟨hd.toTracked, Bool.eq_false_iff.mpr hpanic⟩

/-- What is nested too deeply is reported at its first word or brace. -/
theorem Concluded.excused_skip (h : Concluded source n d) {pass : Draft → Draft}
    (hpass : ∀ d, Steps true d (pass d)) : Excused source (d.skip pass) := by
  have hreport : Excused source (d.failAtPrevious .nestingTooDeep) :=
    h.excused_failAtPrevious rfl
  -- Whether the draft is panicking is put back, and an excuse does not depend on it.
  have hpassed := hreport.of_steps (hpass _)
  exact hpassed

namespace Unexcused

theorem skipStatement {P : Draft → Prop} (hd : Unexcused source (Concluded source n) d) :
    Unexcused source P d.skipStatement :=
  hd.step (steps_skipStatement d) fun hd hexcused =>
    absurd (hd.excused_skip fun d => steps_passStatement d _ _ _) hexcused

theorem skipBlock {P : Draft → Prop} (hd : Unexcused source (Concluded source n) d) :
    Unexcused source P d.skipBlock :=
  hd.step (steps_skipBlock d) fun hd hexcused =>
    absurd (hd.excused_skip fun d => steps_passBlock d _ _) hexcused

/-! ### Statements with a body -/

/-- The first word of a statement with a body is passed, or an `else`. -/
theorem passControl (hd : Unexcused source (Outset source n worded) d)
    (hcontrol : d.current.kind.isControl = true) :
    Unexcused source (Within source n true true) d.advance := by
  have hlive : d.current.kind ≠ .semicolon := fun hkind => by
    simp [hkind, TokenKind.isControl] at hcontrol
  exact hd.step (steps_advance d) fun hd _ =>
    hd.toTracked.advance (Token.isInner_of_isControl hcontrol) (fun _ => .inr ⟨hcontrol, hd.still⟩)
      fun _ => hlive

/-- In the clauses of a statement with a body, an expression may start anywhere. -/
theorem clause (hd : Unexcused source (Within source n true live) d) (levels : Nat) :
    Unexcused source (Within source n true false) (d.expression levels) :=
  (hd.imp fun hd => hd.outset.ready).expression levels

section Bodies

variable {body : Draft → Draft} (hbody : Steady source body) (levels : Nat)

include hbody

omit hbody in
/-- A condition in parentheses, and the jump that it decides. -/
theorem condition (hd : Unexcused source (Within source n true true) d) (what : Expectation)
    (hwhat : (Problem.expected what).isMissingBrace = false) :
    let e := ((d.expect .leftParen what).expression levels).expect .rightParen .closeCondition
    Unexcused source (Within source n true false) ((e.emitJump .jumpIfFalse).2.emitOp .pop) := by
  have hopen := hd.expect .leftParen what rfl hwhat fun _ => by decide
  have hclose := (hopen.clause levels).expect .rightParen .closeCondition rfl rfl
    (absurd · Bool.false_ne_true)
  exact kept_within.emitOp (kept_within.emitJump hclose .jumpIfFalse) .pop

theorem bodyConcluded (hd : Unexcused source (Within source n true live) d) :
    Unexcused source (Concluded source n) (body d) :=
  (hbody (hd.imp Within.outset)).imp Finished.concluded

theorem ifStatement (hd : Unexcused source (Within source n true true) d) :
    Unexcused source (Concluded source n) (d.ifStatement levels body) := by
  have hthen := bodyConcluded hbody (hd.condition levels .openIf rfl)
  have hjump := kept_concluded.emitJump hthen .jump
  rw [Draft.ifStatement]
  simp only
  refine kept_concluded.patchJump ?_ _
  have helse := fun place => kept_concluded.emitOp (kept_concluded.patchJump hjump place) .pop
  split
  · next hcheck =>
    exact bodyConcluded hbody (((helse _).imp Concluded.outset).passControl
      (by rw [kind_of_check hcheck]; rfl))
  · exact helse _

theorem whileStatement (hd : Unexcused source (Within source n true true) d) :
    Unexcused source (Concluded source n) (d.whileStatement levels body) := by
  have hloop := kept_concluded.emitLoop
    (bodyConcluded hbody (hd.condition levels .openWhile rfl)) d.size
  exact kept_concluded.emitOp (kept_concluded.patchJump hloop _) .pop

omit hbody in
theorem forInitial (hd : Unexcused source (Within source n true live) d) :
    Unexcused source (Within source n true false) (d.forInitial levels) := by
  rw [Draft.forInitial]
  split
  · next hcheck =>
    exact (hd.imp Within.toTracked).passChecked hcheck rfl (absurd · Bool.false_ne_true)
  · split
    · next hcheck =>
      have hpassed : Unexcused source (Within source n true true) d.advance :=
        (hd.imp Within.toTracked).passChecked hcheck rfl fun _ => by decide
      exact hpassed.varDeclaration levels
    · exact (hd.imp fun hd => hd.outset.ready).expressionStatement levels

omit hbody in
theorem forCondition (hd : Unexcused source (Within source n true live) d) :
    Unexcused source (Within source n true false) (d.forCondition levels).2 := by
  rw [Draft.forCondition]
  split
  · next hcheck =>
    exact (hd.imp Within.toTracked).passChecked hcheck rfl (absurd · Bool.false_ne_true)
  · have htest := (hd.clause levels).expect .semicolon .endOfLoopCondition rfl rfl
      (absurd · Bool.false_ne_true)
    exact kept_within.emitOp (kept_within.emitJump htest .jumpIfFalse) .pop

omit hbody in
theorem forIncrement (hd : Unexcused source (Within source n true live) d) (condition : Nat) :
    Unexcused source (Within source n true false) (d.forIncrement levels condition).2 := by
  rw [Draft.forIncrement]
  split
  · next hcheck =>
    exact (hd.imp Within.toTracked).passChecked hcheck rfl (absurd · Bool.false_ne_true)
  · have hclause := kept_within.emitOp ((kept_within.emitJump hd .jump).clause levels) .pop
    have hclose := hclause.expect .rightParen .closeFor rfl rfl (absurd · Bool.false_ne_true)
    exact kept_within.patchJump (kept_within.emitLoop hclose condition) _

theorem forStatement (hd : Unexcused source (Within source n true true) d) :
    Unexcused source (Concluded source n) (d.forStatement levels body) := by
  have hopen := (kept_within.setScope hd d.scope.enter).expect .leftParen .openFor rfl rfl
    fun _ => by decide
  have hclauses := ((hopen.forInitial levels).forCondition levels).forIncrement levels
    ((d.beginScope.expect .leftParen .openFor).forInitial levels).size
  have hloop := fun target => kept_concluded.emitLoop (bodyConcluded hbody hclauses) target
  rw [Draft.forStatement]
  simp only
  refine kept_concluded.endScope ?_
  split
  · exact kept_concluded.emitOp (kept_concluded.patchJump (hloop _) _) _
  · exact hloop _

/-! ### Declarations and blocks -/

theorem declaration (hd : Unexcused source (Outset source n false) d) :
    Unexcused source (Outset source n false) (d.declaration levels body) := by
  refine @Unexcused.recovery _ _ false _ ?_
  split
  · next hcheck =>
    have hpassed : Unexcused source (Within source n false true) d.advance :=
      (hd.imp Outset.toTracked).passChecked hcheck rfl fun _ => by decide
    exact hpassed.varDeclaration levels
  · exact (hbody hd).imp Finished.within

end Bodies

/-- **Declarations** end before the closing token or at the end of the source. -/
theorem declarations {compile : Draft → Draft}
    (hcompile : ∀ {d}, Unexcused source (Outset source n false) d →
      Unexcused source (Outset source n false) (compile d))
    (closing : TokenKind) (bound : List Token) (hd : Unexcused source (Outset source n false) d) :
    Unexcused source (fun e => Outset source n false e ∧
        (e.check closing = true ∨ e.check .endOfSource = true))
      (Draft.declarations compile closing bound d) := by
  have hend : ∀ {d}, Unexcused source (Outset source n false) d →
      (d.stalled || d.check closing || d.check .endOfSource) = true →
      Unexcused source (fun e => Outset source n false e ∧
        (e.check closing = true ∨ e.check .endOfSource = true)) d := by
    intro d hd hends
    refine hd.step .refl fun hd hexcused => ⟨hd, ?_⟩
    have hrunning : d.stalled = false := Bool.eq_false_iff.mpr fun h => hexcused (.inl h)
    simpa [hrunning] using hends
  induction bound generalizing d with
  | nil =>
    rw [Draft.declarations]
    split
    · next hends => exact hend hd hends
    · exact hd.step (Step.stall d rfl).steps fun _ hexcused => absurd (.inl rfl) hexcused
  | cons t bound ih =>
    rw [Draft.declarations]
    split
    · next hends => exact hend hd hends
    · exact ih (hcompile hd)

/-- **A block** is closed by its own brace. -/
theorem block {body : Draft → Draft} (hbody : Steady source body) (levels : Nat)
    (hd : Unexcused source (Concluded source (n + 1)) d) :
    Unexcused source (Concluded source n) (d.block levels body) := by
  have hinside := (hd.imp Concluded.outset).declarations
    (fun hd => hd.declaration hbody levels) .rightBrace d.ahead
  rw [Draft.block]
  refine hinside.step (steps_expect _ _ _) fun ⟨hinside, hends⟩ _ => ?_
  rw [Draft.expect]
  split
  · next hcheck =>
    have hkind := kind_of_check hcheck
    exact hinside.toTracked.advance_edge hinside.still (by rw [Token.isInner, hkind]; rfl)
      (by rw [hkind]; decide) (by rw [hkind, TokenKind.weight]; omega)
  · next hcheck =>
    -- At the end of the source no closing brace is ahead, so that no block is open.
    have hend := hends.resolve_left hcheck
    have hsurplus := hinside.surplus
    rw [hinside.proper.current_kind_eq_end.mp (kind_of_check hend), surplus_nil] at hsurplus
    omega

/-! ### Statements -/

theorem statementWith {body : Draft → Draft} (levels : Nat)
    (hbody : levels ≠ 0 → Steady source body) (hd : Unexcused source (Outset source n worded) d) :
    Unexcused source (Finished source n worded) (d.statementWith levels body) := by
  -- A statement with a body is skipped on the last level, so `body` is run on levels above it only.
  have hnested : ∀ compile : Nat → (Draft → Draft) → Draft → Draft,
      (Steady source body → ∀ {d}, Unexcused source (Within source n true true) d →
        Unexcused source (Concluded source n) (compile (levels - 1) body d)) →
      d.current.kind.isControl = true → Unexcused source (Finished source n worded)
        (if levels ≤ 1 then d.advance.skipStatement else compile (levels - 1) body d.advance) := by
    intro compile hcompile hcontrol
    have hnext := hd.passControl hcontrol
    split
    · exact (hnext.imp Within.concluded).skipStatement
    · exact (hcompile (hbody (by omega)) hnext).imp .inr
  rw [Draft.statementWith]
  simp only
  split
  · next hkind =>
    have hnext : Unexcused source (Within source n worded true) d.advance :=
      (hd.imp Outset.toTracked).pass (by rw [Token.isInner, hkind]; rfl) fun _ => by
        rw [hkind]; decide
    exact (hnext.printStatement levels).imp .inl
  · next hkind =>
    exact hnested Draft.ifStatement (fun hbody _ hd => ifStatement hbody _ hd) (by rw [hkind]; rfl)
  · next hkind =>
    exact hnested Draft.whileStatement (fun hbody _ hd => whileStatement hbody _ hd)
      (by rw [hkind]; rfl)
  · next hkind =>
    exact hnested Draft.forStatement (fun hbody _ hd => forStatement hbody _ hd) (by rw [hkind]; rfl)
  · next hkind =>
    have hopen : Unexcused source (Concluded source (n + 1)) d.advance :=
      hd.step (steps_advance d) fun hd _ => hd.toTracked.advance_edge hd.still
        (by rw [Token.isInner, hkind]; rfl) (by rw [hkind]; decide)
        (by rw [hkind, TokenKind.weight]; omega)
    have hscope := kept_concluded.setScope hopen d.advance.scope.enter
    refine Unexcused.imp (kept_concluded.endScope ?_) .inr
    split
    · exact hscope.skipBlock
    · next hlevels => exact hscope.block (hbody hlevels) _
  · exact ((hd.imp Outset.ready).expressionStatement levels).imp .inl

/-- **Compiling a statement** leaves the draft in its stretch, or behind a brace of its own. -/
theorem statement (levels : Nat) : Steady source (Draft.statement levels) := by
  induction levels with
  | zero => exact statementWith 0 fun hzero => absurd rfl hzero
  | succ levels ih => exact statementWith _ fun _ => ih

end Unexcused

end Draft

end Lox
