import Lox.Proofs.Lockstep.Expression

/-!
# Compiling statements side by side

Two compilations of sources with the same tokens, up to where these stand, go through the same
motions from the start to the end. `Parallel` says what a relation between their drafts must keep
for that. From then on the drafts stay related, whatever is compiled.

## Main definitions

* `Parallel`: what a relation between drafts must keep.

## Main results

* `Parallel.toLockstep`: such a relation is kept by expressions.
* `Parallel.statement`, `Parallel.declarations`: and by statements and declarations.
-/

namespace Lox

namespace Draft

/-- A relation between the drafts of two compilations of the same tokens that compiling keeps. Code
and operands are the same on both sides. -/
structure Parallel (Rel : Draft → Draft → Prop) : Prop where
  last {d d' : Draft} : Rel d d' → d.last.kind = .endOfSource ∧ d'.last.kind = .endOfSource
  previous {d d' : Draft} : Rel d d' →
    d.previous.kind = d'.previous.kind ∧ d.previous.lexeme = d'.previous.lexeme
  current {d d' : Draft} : Rel d d' → d.current.kind = d'.current.kind
  ahead {d d' : Draft} : Rel d d' → d.ahead.length = d'.ahead.length
  panicking {d d' : Draft} : Rel d d' → d.panicking = d'.panicking
  stalled {d d' : Draft} : Rel d d' → d.stalled = d'.stalled
  scope {d d' : Draft} : Rel d d' → d.scope = d'.scope
  size {d d' : Draft} : Rel d d' → d.size = d'.size
  advance {d d' : Draft} : Rel d d' → Rel d.advance d'.advance
  failAtPrevious {d d' : Draft} (problem : Problem) : Rel d d' →
    Rel (d.failAtPrevious problem) (d'.failAtPrevious problem)
  failAtCurrent {d d' : Draft} (problem : Problem) : Rel d d' →
    Rel (d.failAtCurrent problem) (d'.failAtCurrent problem)
  emitByte {d d' : Draft} (byte : UInt8) : Rel d d' → Rel (d.emitByte byte) (d'.emitByte byte)
  patch {d d' : Draft} (offset distance : Nat) : Rel d d' →
    Rel { d with chunk := d.chunk.patch offset distance }
      { d' with chunk := d'.chunk.patch offset distance }
  stringConstant {d d' : Draft} (text : String) : Rel d d' →
    (d.stringConstant text).1 = (d'.stringConstant text).1 ∧
      Rel (d.stringConstant text).2 (d'.stringConstant text).2
  number {d d' : Draft} (value : Float) : Rel d d' →
    (d.addConstant (.number value)).1 = (d'.addConstant (.number value)).1 ∧
      Rel (d.addConstant (.number value)).2 (d'.addConstant (.number value)).2
  setPanicking {d d' : Draft} (panicking : Bool) : Rel d d' →
    Rel { d with panicking } { d' with panicking }
  stall {d d' : Draft} : Rel d d' → Rel { d with stalled := true } { d' with stalled := true }
  setScope {d d' : Draft} (scope : LocalScope) : Rel d d' → Rel { d with scope } { d' with scope }

namespace Parallel

variable {Rel : Draft → Draft → Prop} {d d' : Draft} (h : Parallel Rel)

include h

theorem check (hd : Rel d d') (kind : TokenKind) : d.check kind = d'.check kind := by
  rw [Draft.check, Draft.check, h.current hd]

/-- Expressions keep the relation. -/
theorem toLockstep : Lockstep (fun _ => Rel) 0 Eq where
  weaken hd := hd
  operand _ := rfl
  last hd := h.last hd
  previous hd := h.previous hd
  connective hd := congrArg TokenKind.connective? (h.current hd)
  check kind hd _ := h.check hd kind
  scope hd := h.scope hd
  size hd := (h.size hd).symm
  start hd := by
    refine ⟨h.current hd, ?_⟩
    split
    · exact h.advance hd
    · exact h.failAtPrevious _ (h.advance hd)
  advance hd _ := h.advance hd
  failAtPrevious problem hd _ := h.failAtPrevious problem hd
  failAtCurrent problem hd _ := h.failAtCurrent problem hd
  emitByte hd hbyte := hbyte ▸ h.emitByte _ hd
  patch offset distance hd := h.patch offset distance hd
  stringConstant text hd := h.stringConstant text hd
  number value hd := ⟨congrArg (Option.getD · 0) (h.number value hd).1, (h.number value hd).2⟩

/-! ### Code and expressions -/

theorem emitOp (hd : Rel d d') (op : OpCode) : Rel (d.emitOp op) (d'.emitOp op) :=
  h.emitByte _ hd

theorem emitJump (hd : Rel d d') (op : OpCode) :
    (d.emitJump op).1 = (d'.emitJump op).1 ∧ Rel (d.emitJump op).2 (d'.emitJump op).2 := by
  obtain ⟨hplace, hjump⟩ := @Lockstep.emitJump _ _ _ true _ _ h.toLockstep hd op
  exact ⟨hplace.symm, hjump⟩

theorem patchJump (hd : Rel d d') (place : Nat) : Rel (d.patchJump place) (d'.patchJump place) :=
  @Lockstep.patchJump _ _ _ true _ _ h.toLockstep hd _ _ rfl

theorem emitLoop (hd : Rel d d') (target : Nat) : Rel (d.emitLoop target) (d'.emitLoop target) := by
  have hloop := h.emitOp hd .loop
  rw [Draft.emitLoop, Draft.emitLoop, h.size hloop]
  split
  · exact h.emitByte _ (h.emitByte _ hloop)
  · exact h.emitByte _ (h.emitByte _ (h.failAtPrevious _ hloop))

theorem expect (hd : Rel d d') (kind : TokenKind) (what : Expectation) :
    Rel (d.expect kind what) (d'.expect kind what) := by
  rw [Draft.expect, Draft.expect, h.check hd]
  split
  · exact h.advance hd
  · exact h.failAtCurrent _ hd

theorem expression (hd : Rel d d') (levels : Nat) :
    Rel (d.expression levels) (d'.expression levels) :=
  h.toLockstep.expressionAt levels .assignment hd

/-! ### Statements without a body -/

theorem expressionStatement (hd : Rel d d') (levels : Nat) :
    Rel (d.expressionStatement levels) (d'.expressionStatement levels) :=
  h.emitOp (h.expect (h.expression hd levels) _ _) _

theorem printStatement (hd : Rel d d') (levels : Nat) :
    Rel (d.printStatement levels) (d'.printStatement levels) :=
  h.emitOp (h.expect (h.expression hd levels) _ _) _

theorem initialValue (hd : Rel d d') (levels : Nat) :
    Rel (d.initialValue levels) (d'.initialValue levels) := by
  rw [Draft.initialValue, Draft.initialValue, h.check hd]
  refine h.expect ?_ _ _
  split
  · exact h.expression (h.advance hd) levels
  · exact h.emitOp hd _

theorem declareLocal (hd : Rel d d') (name : String) :
    Rel (d.declareLocal name) (d'.declareLocal name) := by
  rw [Draft.declareLocal, Draft.declareLocal, h.scope hd]
  split
  · exact h.setScope _ hd
  · exact h.failAtPrevious _ hd

theorem completeLocal (hd : Rel d d') : Rel d.completeLocal d'.completeLocal := by
  rw [Draft.completeLocal, Draft.completeLocal, h.scope hd]
  exact h.setScope _ hd

theorem varDeclaration (hd : Rel d d') (levels : Nat) :
    Rel (d.varDeclaration levels) (d'.varDeclaration levels) := by
  have hname := h.expect hd .identifier .variableName
  rw [Draft.varDeclaration, Draft.varDeclaration, h.scope hname, (h.previous hname).2]
  simp only
  split
  · obtain ⟨hindex, hconstant⟩ := h.stringConstant
      (d'.expect .identifier .variableName).previous.lexeme hname
    rw [hindex]
    exact h.emitByte _ (h.emitOp (h.initialValue hconstant levels) _)
  · exact h.completeLocal (h.initialValue (h.declareLocal hname _) levels)

/-! ### Passing and recovering -/

theorem seekFooting {bound bound' : List Token} (hd : Rel d d')
    (hbound : bound.length = bound'.length) :
    Rel (Draft.seekFooting bound d) (Draft.seekFooting bound' d') := by
  induction bound generalizing bound' d d' with
  | nil =>
    obtain rfl := List.eq_nil_of_length_eq_zero hbound.symm
    exact hd
  | cons t bound ih =>
    obtain ⟨t', bound', rfl⟩ := List.exists_cons_of_length_eq_add_one hbound.symm
    rw [Draft.seekFooting, Draft.seekFooting, h.check hd, h.current hd, (h.previous hd).1]
    split
    · exact hd
    · exact ih (h.advance hd) (Nat.succ.inj hbound)

theorem synchronize (hd : Rel d d') : Rel d.synchronize d'.synchronize :=
  h.seekFooting (h.setPanicking false hd) (h.ahead hd)

theorem recovery (hd : Rel d d') : Rel (if d.panicking then d.synchronize else d)
    (if d'.panicking then d'.synchronize else d') := by
  rw [h.panicking hd]
  split
  · exact h.synchronize hd
  · exact hd

theorem passBlock {bound bound' : List Token} (hd : Rel d d')
    (hbound : bound.length = bound'.length) (braces : Nat) :
    Rel (Draft.passBlock bound braces d) (Draft.passBlock bound' braces d') := by
  induction bound generalizing bound' d d' braces with
  | nil =>
    obtain rfl := List.eq_nil_of_length_eq_zero hbound.symm
    exact hd
  | cons t bound ih =>
    obtain ⟨t', bound', rfl⟩ := List.exists_cons_of_length_eq_add_one hbound.symm
    obtain ⟨n, heq⟩ := passBlock_cons d'.current.kind braces
    rw [heq d t bound (h.current hd), heq d' t' bound' rfl, h.check hd]
    split
    · exact hd
    · split
      · exact h.advance hd
      · exact ih (h.advance hd) (Nat.succ.inj hbound) _

theorem passStatement {bound bound' : List Token} (hd : Rel d d')
    (hbound : bound.length = bound'.length) (parens braces : Nat) :
    Rel (Draft.passStatement bound parens braces d)
      (Draft.passStatement bound' parens braces d') := by
  induction bound generalizing bound' d d' parens braces with
  | nil =>
    obtain rfl := List.eq_nil_of_length_eq_zero hbound.symm
    exact hd
  | cons t bound ih =>
    obtain ⟨t', bound', rfl⟩ := List.exists_cons_of_length_eq_add_one hbound.symm
    have hnext := h.advance hd
    obtain ⟨m, n, heq⟩ := passStatement_cons d'.current.kind parens braces
    rw [heq d t bound (h.current hd), heq d' t' bound' rfl, h.check hnext]
    split
    · exact hd
    · split
      · split
        · exact ih (h.advance hnext) (Nat.succ.inj hbound) _ _
        · exact hnext
      · exact ih hnext (Nat.succ.inj hbound) _ _

theorem skip {pass : Draft → Draft} (hpass : ∀ d d', Rel d d' → Rel (pass d) (pass d'))
    (hd : Rel d d') : Rel (d.skip pass) (d'.skip pass) := by
  rw [Draft.skip, Draft.skip, h.panicking hd]
  exact h.setPanicking _ (hpass _ _ (h.failAtPrevious _ hd))

theorem skipBlock (hd : Rel d d') : Rel d.skipBlock d'.skipBlock :=
  h.skip (fun _ _ hd => h.passBlock hd (h.ahead hd) 1) hd

theorem skipStatement (hd : Rel d d') : Rel d.skipStatement d'.skipStatement :=
  h.skip (fun _ _ hd => h.passStatement hd (h.ahead hd) 0 0) hd

/-! ### Scopes -/

theorem beginScope (hd : Rel d d') : Rel d.beginScope d'.beginScope := by
  rw [Draft.beginScope, Draft.beginScope, h.scope hd]
  exact h.setScope _ hd

theorem endScope (hd : Rel d d') : Rel d.endScope d'.endScope := by
  have hrepeat : ∀ (n : Nat) (d d' : Draft), Rel d d' →
      Rel (Nat.repeat (Draft.emitOp · .pop) n d) (Nat.repeat (Draft.emitOp · .pop) n d') := by
    intro n d d' hd
    induction n with
    | zero => exact hd
    | succ n ih => exact h.emitOp ih _
  rw [Draft.endScope, Draft.endScope, h.scope hd]
  exact hrepeat _ _ _ (h.setScope _ hd)

/-! ### Statements with a body -/

section Bodies

variable {body : Draft → Draft} (hbody : ∀ d d', Rel d d' → Rel (body d) (body d'))
  (levels : Nat)

include hbody

theorem ifStatement (hd : Rel d d') : Rel (d.ifStatement levels body) (d'.ifStatement levels body) := by
  obtain ⟨hother, hbranch⟩ := h.emitJump (h.expect (h.expression (h.expect hd .leftParen .openIf)
    levels) .rightParen .closeCondition) .jumpIfFalse
  obtain ⟨hdone, hjump⟩ := h.emitJump (hbody _ _ (h.emitOp hbranch .pop)) .jump
  have helse := h.emitOp (h.patchJump hjump (((d'.expect .leftParen .openIf).expression
    levels).expect .rightParen .closeCondition |>.emitJump .jumpIfFalse).1) .pop
  rw [Draft.ifStatement, Draft.ifStatement]
  simp only [hother, hdone, h.check helse]
  refine h.patchJump ?_ _
  split
  · exact hbody _ _ (h.advance helse)
  · exact helse

theorem whileStatement (hd : Rel d d') :
    Rel (d.whileStatement levels body) (d'.whileStatement levels body) := by
  obtain ⟨hdone, hbranch⟩ := h.emitJump (h.expect (h.expression (h.expect hd .leftParen .openWhile)
    levels) .rightParen .closeCondition) .jumpIfFalse
  rw [Draft.whileStatement, Draft.whileStatement]
  simp only [hdone, h.size hd]
  exact h.emitOp (h.patchJump (h.emitLoop (hbody _ _ (h.emitOp hbranch .pop)) _) _) _

omit hbody in
theorem forInitial (hd : Rel d d') : Rel (d.forInitial levels) (d'.forInitial levels) := by
  rw [Draft.forInitial, Draft.forInitial, h.check hd, h.check hd]
  split
  · exact h.advance hd
  · split
    · exact h.varDeclaration (h.advance hd) levels
    · exact h.expressionStatement hd levels

omit hbody in
theorem forCondition (hd : Rel d d') : (d.forCondition levels).1 = (d'.forCondition levels).1 ∧
    Rel (d.forCondition levels).2 (d'.forCondition levels).2 := by
  rw [Draft.forCondition, Draft.forCondition, h.check hd]
  split
  · exact ⟨rfl, h.advance hd⟩
  · obtain ⟨hdone, hbranch⟩ := h.emitJump (h.expect (h.expression hd levels) .semicolon
      .endOfLoopCondition) .jumpIfFalse
    exact ⟨congrArg some hdone, h.emitOp hbranch .pop⟩

omit hbody in
theorem forIncrement (hd : Rel d d') (condition : Nat) :
    (d.forIncrement levels condition).1 = (d'.forIncrement levels condition).1 ∧
      Rel (d.forIncrement levels condition).2 (d'.forIncrement levels condition).2 := by
  rw [Draft.forIncrement, Draft.forIncrement, h.check hd]
  split
  · exact ⟨rfl, h.advance hd⟩
  · obtain ⟨hbody, hjump⟩ := h.emitJump hd .jump
    simp only [hbody]
    exact ⟨h.size hjump, h.patchJump (h.emitLoop (h.expect (h.emitOp (h.expression hjump levels) .pop)
      .rightParen .closeFor) _) _⟩

theorem forStatement (hd : Rel d d') :
    Rel (d.forStatement levels body) (d'.forStatement levels body) := by
  have hinitial := h.forInitial levels (h.expect (h.beginScope hd) .leftParen .openFor)
  obtain ⟨hdone, hcondition⟩ := h.forCondition levels hinitial
  obtain ⟨hagain, hincrement⟩ := h.forIncrement levels hcondition
    ((d'.beginScope.expect .leftParen .openFor).forInitial levels).size
  rw [Draft.forStatement, Draft.forStatement]
  simp only [hdone, hagain, h.size hinitial]
  refine h.endScope ?_
  have hloop := fun target => h.emitLoop (hbody _ _ hincrement) target
  split
  · exact h.emitOp (h.patchJump (hloop _) _) _
  · exact hloop _

theorem declaration (hd : Rel d d') :
    Rel (d.declaration levels body) (d'.declaration levels body) := by
  have hfirst : Rel (if d.check .kwVar then d.advance.varDeclaration levels else body d)
      (if d'.check .kwVar then d'.advance.varDeclaration levels else body d') := by
    rw [h.check hd]
    split
    · exact h.varDeclaration (h.advance hd) levels
    · exact hbody _ _ hd
  exact h.recovery hfirst

end Bodies

/-! ### Blocks and statements -/

theorem declarations {compile : Draft → Draft}
    (hcompile : ∀ d d', Rel d d' → Rel (compile d) (compile d')) (closing : TokenKind)
    {bound bound' : List Token} (hd : Rel d d') (hbound : bound.length = bound'.length) :
    Rel (Draft.declarations compile closing bound d)
      (Draft.declarations compile closing bound' d') := by
  induction bound generalizing bound' d d' with
  | nil =>
    obtain rfl := List.eq_nil_of_length_eq_zero hbound.symm
    rw [Draft.declarations, Draft.declarations, h.stalled hd, h.check hd, h.check hd]
    split
    · exact hd
    · exact h.stall hd
  | cons t bound ih =>
    obtain ⟨t', bound', rfl⟩ := List.exists_cons_of_length_eq_add_one hbound.symm
    rw [Draft.declarations, Draft.declarations, h.stalled hd, h.check hd, h.check hd]
    split
    · exact hd
    · exact ih (hcompile _ _ hd) (Nat.succ.inj hbound)

theorem block {body : Draft → Draft} (hbody : ∀ d d', Rel d d' → Rel (body d) (body d'))
    (levels : Nat) (hd : Rel d d') : Rel (d.block levels body) (d'.block levels body) :=
  h.expect (h.declarations (fun _ _ hd => h.declaration hbody levels hd) .rightBrace hd
    (h.ahead hd)) _ _

theorem statementWith {body : Draft → Draft} (hbody : ∀ d d', Rel d d' → Rel (body d) (body d'))
    (levels : Nat) (hd : Rel d d') :
    Rel (d.statementWith levels body) (d'.statementWith levels body) := by
  have hnext := h.advance hd
  have hnested : ∀ compile : Nat → (Draft → Draft) → Draft → Draft,
      (∀ d d', Rel d d' → Rel (compile (levels - 1) body d) (compile (levels - 1) body d')) →
      Rel (if levels ≤ 1 then d.advance.skipStatement else compile (levels - 1) body d.advance)
        (if levels ≤ 1 then d'.advance.skipStatement else compile (levels - 1) body d'.advance) := by
    intro compile hcompile
    split
    · exact h.skipStatement hnext
    · exact hcompile _ _ hnext
  rw [Draft.statementWith, Draft.statementWith, h.current hd]
  simp only
  split
  · exact h.printStatement hnext levels
  · exact hnested Draft.ifStatement fun _ _ hd => h.ifStatement hbody _ hd
  · exact hnested Draft.whileStatement fun _ _ hd => h.whileStatement hbody _ hd
  · exact hnested Draft.forStatement fun _ _ hd => h.forStatement hbody _ hd
  · refine h.endScope ?_
    split
    · exact h.skipBlock (h.beginScope hnext)
    · exact h.block hbody _ (h.beginScope hnext)
  · exact h.expressionStatement hd levels

/-- **Compiling a statement** keeps the drafts related. -/
theorem statement (levels : Nat) (hd : Rel d d') : Rel (statement levels d) (statement levels d') := by
  induction levels generalizing d d' with
  | zero => exact h.statementWith (fun _ _ hd => hd) 0 hd
  | succ levels ih => exact h.statementWith (fun _ _ hd => ih hd) _ hd

/-- **Compiling a whole source** keeps the drafts related. -/
theorem source {limits : Limits} {interner interner' : Interner} {source source' : String}
    (hstart : Rel (start source limits.locals interner) (start source' limits.locals interner')) :
    Rel (ofSource limits interner source) (ofSource limits interner' source') :=
  h.emitOp (h.advance (h.declarations (fun _ _ hd => h.declaration
    (fun _ _ hd => h.statement limits.nesting hd) limits.nesting hd) .endOfSource hstart
    (h.ahead hstart))) .halt

end Parallel

end Draft

end Lox
