import Lox.Compilation.Use
import Lox.Proofs.Draft.Invariants
import Lox.Proofs.Grammar

/-!
# Maintaining an invariant

Compiling a source keeps an invariant of the draft as soon as the operations do that it is made of.
`Step` breaks compiling up into single bytes and into reports at any token, which is too fine for
what is true of whole instructions or of the order of reports. `Maintained` lists operations at a
coarser grain: whole instructions are written, a patch goes to the placeholder of a jump, an operand
that names a text is the index that was answered when the text was looked up, and reports are made at
the current token or the one just passed. What a draft still owes is kept in a list beside it:
placeholders that are to be patched and texts whose index is to be written.

An invariant has two strengths. Inside a statement that has *begun*, something has been passed or
reported since the last recovery, and the token just passed may be reported. Between statements that
is not so: recovery may have stopped at once behind a token that was current when it was reported.

## Main definitions

* `Problem.isLexical`: which problems are reported at errors only.
* `Pending`: a placeholder to patch or a text to name.
* `Maintained`: what an invariant has to be kept by.

## Main results

* `Maintained.expressionAt`, `Maintained.statement`, `Maintained.declarations`: compiling keeps the
  invariant.
* `Maintained.compile`: so does compiling a whole source, up to the halt at its end.
-/

namespace Lox

/-- Whether a problem is with the text of a token. -/
def Problem.isLexical : Problem → Bool
  | lexical _ => true
  | _ => false

namespace Draft

/-- What has been written or answered, to be used later. -/
inductive Pending where
  /-- The offset of the placeholder of a jump. -/
  | jump (placeholder : Nat)
  /-- A text that has been looked up. -/
  | text (u : Use)

/-- An invariant that the operations of compiling keep. The mark says whether a statement has
begun. -/
structure Maintained (Inv : Bool → List Pending → Draft → Prop) : Prop where
  settle {ps : List Pending} {d : Draft} : Inv true ps d → Inv false ps d
  forget {placeholder : Nat} {ps : List Pending} {d : Draft} :
    Inv true (.jump placeholder :: ps) d → Inv true ps d
  advance {begun : Bool} {ps : List Pending} {d : Draft} : Inv begun ps d → Inv true ps d.advance
  failAtPrevious {ps : List Pending} {d : Draft} (problem : Problem) : Inv true ps d →
    problem.isLexical = false → Inv true ps (d.failAtPrevious problem)
  failAtCurrent {begun : Bool} {ps : List Pending} {d : Draft} (problem : Problem) :
    Inv begun ps d → problem.isLexical = false → Inv true ps (d.failAtCurrent problem)
  emitOp {ps : List Pending} {d : Draft} (op : OpCode) : Inv true ps d → op.operand = .none →
    Inv true ps (d.emitOp op)
  emitSlot {ps : List Pending} {d : Draft} (op : OpCode) (slot : UInt8) : Inv true ps d →
    op.operand = .slot → Inv true ps (d.emitOpByte op slot)
  emitNumber {ps : List Pending} {d : Draft} (value : Float) : Inv true ps d →
    Inv true ps (d.emitConstant (.number value))
  lookUp {ps : List Pending} (u : Use) : Inv true ps u.draft → u.Arises →
    Inv true (.text u :: ps) u.after
  emitText {ps : List Pending} {u : Use} {d : Draft} (op : OpCode) : Inv true (.text u :: ps) d →
    op ∈ u.role.opCodes → Inv true ps (d.emitOpByte op u.operand)
  emitJump {ps : List Pending} {d : Draft} (op : OpCode) : Inv true ps d → op.operand = .forward →
    Inv true (.jump (d.emitJump op).1 :: ps) (d.emitJump op).2
  emitLoop {ps : List Pending} {d : Draft} (target : Nat) : Inv true ps d →
    Inv true ps (d.emitLoop target)
  patch {ps : List Pending} {d : Draft} (placeholder distance : Nat) : Inv true ps d →
    .jump placeholder ∈ ps → distance ≤ maxDistance →
    Inv true ps { d with chunk := d.chunk.patch placeholder distance }
  calm {ps : List Pending} {d : Draft} : Inv true ps d → Inv false ps { d with panicking := false }
  /-- What is nested too deeply is reported and then passed, and leaves the draft no more panicking
  than it was. -/
  skip {ps : List Pending} {d : Draft} (count : Nat) : Inv true ps d → Inv true ps
    { Draft.advance^[count] (d.failAtPrevious .nestingTooDeep) with panicking := d.panicking }
  stall {ps : List Pending} {d : Draft} : Inv false ps d → Inv false ps { d with stalled := true }
  scope {ps : List Pending} {d : Draft} (scope : LocalScope) : Inv true ps d →
    Inv true ps { d with scope }

theorem kind_previous_advance {d : Draft} {kind : TokenKind} (h : d.check kind = true) :
    d.advance.previous.kind = kind := by
  rw [previous_advance, kind_of_check h]

/-- Behind `var` comes the name of the variable, or that is reported. -/
theorem kind_of_name {d : Draft} (hkind : d.previous.kind = .kwVar) :
    let e := d.expect .identifier .variableName
    e.previous.kind = .identifier ∨ e.previous.kind = .kwVar ∧ e.panicking = true := by
  intro e
  by_cases hcheck : d.check .identifier = true
  · left
    show (d.expect .identifier .variableName).previous.kind = _
    rw [Draft.expect, if_pos hcheck, kind_previous_advance hcheck]
  · right
    have heq : e = d.failAtCurrent (.expected .variableName) := if_neg hcheck
    rw [heq, Draft.failAtCurrent, previous_report]
    exact ⟨hkind, panicking_report ..⟩

namespace Maintained

variable {Inv : Bool → List Pending → Draft → Prop} {begun : Bool} {ps : List Pending} {d : Draft}
  (h : Maintained Inv)

include h

/-! ### Code and tokens -/

theorem expect (hd : Inv begun ps d) (kind : TokenKind) (what : Expectation) :
    Inv true ps (d.expect kind what) := by
  rw [Draft.expect]
  split
  · exact h.advance hd
  · exact h.failAtCurrent _ hd rfl

theorem emitOps {ops : List OpCode} (hd : Inv true ps d) (hops : ∀ op ∈ ops, op.operand = .none) :
    Inv true ps (ops.foldl Draft.emitOp d) := by
  induction ops generalizing d with
  | nil => exact hd
  | cons op ops ih =>
    exact ih (h.emitOp op hd (hops op List.mem_cons_self)) fun other hmem =>
      hops other (List.mem_cons_of_mem _ hmem)

theorem patchJump {placeholder : Nat} (hd : Inv true ps d) (hmem : .jump placeholder ∈ ps) :
    Inv true ps (d.patchJump placeholder) := by
  rw [Draft.patchJump]
  split
  · next hfits => exact h.patch _ _ hd hmem hfits
  · exact h.failAtPrevious _ hd rfl

/-! ### Expressions -/

section Expressions

variable {expr : Precedence → Draft → Draft}
  (hexpr : ∀ {ps d} level, Inv true ps d → Inv true ps (expr level d))

include hexpr

/-- A variable is read and assigned by instructions of the same kind of operand. -/
theorem access {get set : OpCode} {operand : UInt8} {qs : List Pending} (hd : Inv true ps d)
    (assignable : Bool)
    (hemit : ∀ {d}, Inv true ps d → Inv true qs (d.emitOpByte get operand) ∧
      Inv true qs (d.emitOpByte set operand)) :
    Inv true qs (access expr assignable get set operand d) := by
  rw [Draft.access]
  split
  · exact (hemit (hexpr _ (h.advance hd))).2
  · exact (hemit hd).1

/-- A global whose name has been looked up is read or assigned. -/
theorem accessGlobal {name : String} (hname : d.previous.lexeme = name)
    (hd : Inv true (.text ⟨d, .access⟩ :: ps) (d.stringConstant name).2) (assignable : Bool) :
    Inv true ps (Draft.access expr assignable .getGlobal .setGlobal (d.stringConstant name).1
      (d.stringConstant name).2) := by
  subst hname
  exact h.access hexpr hd assignable fun hd => ⟨h.emitText .getGlobal hd List.mem_cons_self,
    h.emitText .setGlobal hd (List.mem_cons_of_mem _ List.mem_cons_self)⟩

theorem nameUse (hd : Inv true ps d) (hkind : d.previous.kind = .identifier)
    (assignable : Bool) : Inv true ps (nameUse expr assignable d) := by
  rw [Draft.nameUse]
  split
  · exact h.failAtPrevious _ hd rfl
  · exact h.access hexpr hd assignable fun hd => ⟨h.emitSlot _ _ hd rfl, h.emitSlot _ _ hd rfl⟩
  · next hglobal =>
    exact h.accessGlobal hexpr rfl (h.lookUp ⟨d, .access⟩ hd ⟨hkind, hglobal⟩) assignable

theorem operand (hd : Inv true ps d) {opening : Opening}
    (hopening : d.previous.kind.opening? = some opening) (assignable : Bool) :
    Inv true ps (Draft.operand expr opening assignable d) := by
  have hkind := TokenKind.opening?_eq_some_iff.mp hopening
  cases opening with
  | grouping => exact h.expect (hexpr _ hd) _ _
  | unary op => exact h.emitOp _ (hexpr _ hd) (by cases op <;> rfl)
  | number => exact h.emitNumber _ hd
  | string => exact h.emitText .constant (h.lookUp ⟨d, .literal⟩ hd hkind) List.mem_cons_self
  | literal value =>
    refine h.emitOp _ hd ?_
    obtain _ | value := value
    · rfl
    · cases value <;> rfl
  | «variable» => exact h.nameUse hexpr hd hkind assignable

theorem conjunction (hd : Inv true ps d) : Inv true ps (conjunction expr d) :=
  h.forget (h.patchJump (hexpr _ (h.emitOp _ (h.emitJump _ hd rfl) rfl)) List.mem_cons_self)

theorem disjunction (hd : Inv true ps d) : Inv true ps (disjunction expr d) := by
  have hother := h.emitJump .jumpIfFalse hd rfl
  have hdone := h.emitJump .jump hother rfl
  -- The first jump is patched while the second is still pending.
  have hbranch := h.patchJump hdone (List.mem_cons_of_mem _ List.mem_cons_self)
  have hright := hexpr .or (h.emitOp .pop hbranch rfl)
  exact h.forget (h.forget (h.patchJump hright List.mem_cons_self))

theorem connect (hd : Inv true ps d) (connective : Connective) :
    Inv true ps (connect expr connective d) := by
  cases connective with
  | binary op => exact h.emitOps (hexpr _ hd) (by cases op <;> decide)
  | and => exact h.conjunction hexpr hd
  | or => exact h.disjunction hexpr hd

theorem connectives (hd : Inv true ps d) (level : Precedence) (bound : List Token) :
    Inv true ps (connectives expr level bound d) := by
  induction bound generalizing d with
  | nil => exact hd
  | cons t bound ih =>
    rw [Draft.connectives]
    split
    · exact hd
    · split
      · exact ih (h.connect hexpr (h.advance hd) _)
      · exact hd

/-- What comes behind the operand. -/
theorem afterOperand {opening : Opening} (hopening : d.previous.kind.opening? = some opening)
    {level : Precedence}
    (hd : Inv true ps (Draft.operand expr opening (decide (level ≤ .assignment)) d)) :
    Inv true ps (operandAndConnectives expr level d) := by
  have hwhole := h.connectives hexpr hd level
    (Draft.operand expr opening (decide (level ≤ .assignment)) d).ahead
  rw [Draft.operandAndConnectives, hopening]
  simp only
  split
  · exact h.failAtPrevious _ (h.advance hwhole) rfl
  · exact hwhole

theorem operandAndConnectives (hd : Inv true ps d) (level : Precedence) :
    Inv true ps (operandAndConnectives expr level d) := by
  cases hopening : d.previous.kind.opening? with
  | none =>
    rw [Draft.operandAndConnectives, hopening]
    exact h.failAtPrevious _ hd rfl
  | some opening => exact h.afterOperand hexpr hopening (h.operand hexpr hd hopening _)

end Expressions

/-- **Compiling an expression** keeps the invariant. -/
theorem expressionAt (hd : Inv begun ps d) (levels : Nat) (level : Precedence) :
    Inv true ps (expressionAt levels level d) := by
  induction levels generalizing begun ps d level with
  | zero => exact h.failAtCurrent _ hd rfl
  | succ levels ih =>
    exact h.operandAndConnectives (fun level hd => ih hd level) (h.advance hd) level

theorem expression (hd : Inv begun ps d) (levels : Nat) : Inv true ps (d.expression levels) :=
  h.expressionAt hd levels .assignment

/-! ### Statements without a body -/

theorem expressionStatement (hd : Inv begun ps d) (levels : Nat) :
    Inv true ps (d.expressionStatement levels) :=
  h.emitOp _ (h.expect (h.expression hd levels) _ _) rfl

theorem printStatement (hd : Inv begun ps d) (levels : Nat) :
    Inv true ps (d.printStatement levels) :=
  h.emitOp _ (h.expect (h.expression hd levels) _ _) rfl

theorem initialValue (hd : Inv true ps d) (levels : Nat) : Inv true ps (d.initialValue levels) := by
  rw [Draft.initialValue]
  split
  · exact h.expect (h.expression (h.advance hd) levels) _ _
  · exact h.expect (h.emitOp _ hd rfl) _ _

theorem declareLocal (hd : Inv true ps d) (name : String) : Inv true ps (d.declareLocal name) := by
  rw [Draft.declareLocal]
  split
  · exact h.scope _ hd
  · exact h.failAtPrevious _ hd rfl

/-- The initial value of a global whose name has been looked up, and its definition. -/
theorem defineGlobal {u : Use} (hd : Inv true (.text u :: ps) u.after) (hrole : u.role = .declaration)
    (levels : Nat) : Inv true ps ((u.after.initialValue levels).emitOpByte .defineGlobal u.operand) :=
  h.emitText .defineGlobal (h.initialValue hd levels) (hrole ▸ List.mem_cons_self)

theorem varDeclaration (hd : Inv true ps d) (hkind : d.previous.kind = .kwVar) (levels : Nat) :
    Inv true ps (d.varDeclaration levels) := by
  have hname := h.expect hd .identifier .variableName
  rw [Draft.varDeclaration]
  simp only
  split
  · next hglobal =>
    exact h.defineGlobal (h.lookUp ⟨_, .declaration⟩ hname ⟨hglobal, kind_of_name hkind⟩) rfl levels
  · exact h.scope _ (h.initialValue (h.declareLocal hname _) levels)

/-! ### Recovering and skipping -/

theorem seekFooting (hd : Inv false ps d) (bound : List Token) :
    Inv false ps (Draft.seekFooting bound d) := by
  induction bound generalizing d with
  | nil => exact hd
  | cons t bound ih =>
    rw [Draft.seekFooting]
    split
    · exact hd
    · exact ih (h.settle (h.advance hd))

theorem recovery (hd : Inv true ps d) : Inv false ps (if d.panicking then d.synchronize else d) := by
  split
  · exact h.seekFooting (h.calm hd) _
  · exact h.settle hd

theorem skipBlock (hd : Inv true ps d) : Inv true ps d.skipBlock := by
  obtain ⟨count, hcount⟩ := exists_passBlock (d.failAtPrevious .nestingTooDeep).ahead 1
    (d.failAtPrevious .nestingTooDeep)
  rw [Draft.skipBlock, Draft.skip, hcount]
  exact h.skip count hd

theorem skipStatement (hd : Inv true ps d) : Inv true ps d.skipStatement := by
  obtain ⟨count, hcount⟩ := exists_passStatement (d.failAtPrevious .nestingTooDeep).ahead 0 0
    (d.failAtPrevious .nestingTooDeep)
  rw [Draft.skipStatement, Draft.skip, hcount]
  exact h.skip count hd

theorem endScope (hd : Inv true ps d) : Inv true ps d.endScope := by
  have hrepeat : ∀ (n : Nat) (d : Draft), Inv true ps d →
      Inv true ps (Nat.repeat (Draft.emitOp · .pop) n d) := by
    intro n d hd
    induction n with
    | zero => exact hd
    | succ n ih => exact h.emitOp .pop ih rfl
  exact hrepeat _ _ (h.scope _ hd)

/-! ### Statements with a body -/

section Bodies

variable {body : Draft → Draft} (hbody : ∀ {ps d}, Inv false ps d → Inv true ps (body d))
  (levels : Nat)

include hbody

omit hbody in
/-- A condition in parentheses, and the jump that it decides. -/
theorem condition (hd : Inv true ps d) (what : Expectation) :
    let e := ((d.expect .leftParen what).expression levels).expect .rightParen .closeCondition
    Inv true (.jump (e.emitJump .jumpIfFalse).1 :: ps) ((e.emitJump .jumpIfFalse).2.emitOp .pop) :=
  h.emitOp _ (h.emitJump _ (h.expect (h.expression (h.expect hd .leftParen what) levels) _ _) rfl) rfl

theorem ifStatement (hd : Inv true ps d) : Inv true ps (d.ifStatement levels body) := by
  have hthen := hbody (h.settle (h.condition levels hd .openIf))
  have hjump := h.emitJump .jump hthen rfl
  have helse := h.emitOp .pop
    (h.patchJump hjump (List.mem_cons_of_mem _ List.mem_cons_self)) rfl
  rw [Draft.ifStatement]
  simp only
  split
  · exact h.forget (h.forget (h.patchJump (hbody (h.settle (h.advance helse))) List.mem_cons_self))
  · exact h.forget (h.forget (h.patchJump helse List.mem_cons_self))

theorem whileStatement (hd : Inv true ps d) : Inv true ps (d.whileStatement levels body) := by
  have hloop := h.emitLoop d.size (hbody (h.settle (h.condition levels hd .openWhile)))
  exact h.forget (h.emitOp _ (h.patchJump hloop List.mem_cons_self) rfl)

omit hbody in
theorem forInitial (hd : Inv true ps d) : Inv true ps (d.forInitial levels) := by
  rw [Draft.forInitial]
  split
  · exact h.advance hd
  · split
    · next hcheck => exact h.varDeclaration (h.advance hd) (kind_previous_advance hcheck) levels
    · exact h.expressionStatement hd levels

/-- What the condition of a for statement leaves to be patched. -/
def exitOf (done : Option Nat) : List Pending := (done.map Pending.jump).toList

omit hbody in
theorem forCondition (hd : Inv true ps d) :
    Inv true (exitOf (d.forCondition levels).1 ++ ps) (d.forCondition levels).2 := by
  rw [Draft.forCondition]
  split
  · exact h.advance hd
  · exact h.emitOp _ (h.emitJump _ (h.expect (h.expression hd levels) _ _) rfl) rfl

omit hbody in
theorem forIncrement (hd : Inv true ps d) (condition : Nat) :
    Inv true ps (d.forIncrement levels condition).2 := by
  rw [Draft.forIncrement]
  split
  · exact h.advance hd
  · have hclause := h.emitOp .pop (h.expression (h.emitJump .jump hd rfl) levels) rfl
    exact h.forget (h.patchJump (h.emitLoop _ (h.expect hclause .rightParen .closeFor))
      List.mem_cons_self)

theorem forStatement (hd : Inv true ps d) : Inv true ps (d.forStatement levels body) := by
  have hopen : Inv true ps d.beginScope := h.scope _ hd
  have hinitial := h.forInitial levels (h.expect hopen .leftParen .openFor)
  have hcondition := h.forCondition levels hinitial
  have hincrement := h.forIncrement levels hcondition
    ((d.beginScope.expect .leftParen .openFor).forInitial levels).size
  have hloop := fun target => h.emitLoop target (hbody (h.settle hincrement))
  rw [Draft.forStatement]
  simp only
  refine h.endScope ?_
  -- Only a condition has left a jump to be patched.
  cases hdone : (((d.beginScope.expect .leftParen .openFor).forInitial levels).forCondition
      levels).1 with
  | none =>
    rw [hdone] at hloop
    exact hloop _
  | some done =>
    rw [hdone] at hloop
    exact h.forget (h.emitOp _ (h.patchJump (hloop _) List.mem_cons_self) rfl)

theorem declaration (hd : Inv false ps d) : Inv false ps (d.declaration levels body) := by
  refine h.recovery ?_
  split
  · next hcheck => exact h.varDeclaration (h.advance hd) (kind_previous_advance hcheck) levels
  · exact hbody hd

end Bodies

/-! ### Blocks and statements -/

theorem declarations {compile : Draft → Draft}
    (hcompile : ∀ {d}, Inv false ps d → Inv false ps (compile d)) (closing : TokenKind)
    (bound : List Token) (hd : Inv false ps d) :
    Inv false ps (Draft.declarations compile closing bound d) := by
  induction bound generalizing d with
  | nil =>
    rw [Draft.declarations]
    split
    · exact hd
    · exact h.stall hd
  | cons t bound ih =>
    rw [Draft.declarations]
    split
    · exact hd
    · exact ih (hcompile hd)

theorem block {body : Draft → Draft} (hbody : ∀ {ps d}, Inv false ps d → Inv true ps (body d))
    (levels : Nat) (hd : Inv true ps d) : Inv true ps (d.block levels body) :=
  h.expect (h.declarations (fun hd => h.declaration hbody levels hd) .rightBrace d.ahead
    (h.settle hd)) _ _

/-- Without a level left, no statement inside is compiled. -/
theorem statementWith {body : Draft → Draft} (levels : Nat)
    (hbody : levels ≠ 0 → ∀ {ps d}, Inv false ps d → Inv true ps (body d)) (hd : Inv false ps d) :
    Inv true ps (d.statementWith levels body) := by
  have hnext := h.advance hd
  -- A statement with a body is skipped on the last level, so `body` is run on levels above it only.
  have hnested : ∀ compile : Nat → (Draft → Draft) → Draft → Draft,
      ((∀ {ps d}, Inv false ps d → Inv true ps (body d)) →
        Inv true ps (compile (levels - 1) body d.advance)) →
      Inv true ps
        (if levels ≤ 1 then d.advance.skipStatement else compile (levels - 1) body d.advance) := by
    intro compile hcompile
    split
    · exact h.skipStatement hnext
    · exact hcompile (hbody (by omega))
  rw [Draft.statementWith]
  simp only
  split
  · exact h.printStatement hnext levels
  · exact hnested Draft.ifStatement fun hbody => h.ifStatement hbody _ hnext
  · exact hnested Draft.whileStatement fun hbody => h.whileStatement hbody _ hnext
  · exact hnested Draft.forStatement fun hbody => h.forStatement hbody _ hnext
  · refine h.endScope ?_
    split
    · exact h.skipBlock (h.scope _ hnext)
    · next hlevels => exact h.block (hbody hlevels) _ (h.scope _ hnext)
  · exact h.expressionStatement hd levels

/-- **Compiling a statement** keeps the invariant. -/
theorem statement (levels : Nat) (hd : Inv false ps d) : Inv true ps (statement levels d) := by
  induction levels generalizing ps d with
  | zero => exact h.statementWith 0 (fun hzero => absurd rfl hzero) hd
  | succ levels ih => exact h.statementWith _ (fun _ => ih) hd

/-- **What a compilation holds** comes from a draft that the invariant holds of, and a halt, which is
on the line of the last token. -/
theorem compile {limits : Limits} {interner : Interner} {source : String} {c : Compilation}
    (hstart : Inv false [] (start source limits.locals interner))
    (hc : compile limits interner source = some c) :
    ∃ d, Inv true [] d ∧ c = ⟨(d.emitOp .halt).chunk, d.diagnostics, d.interner⟩ := by
  rw [Lox.compile] at hc
  split at hc
  · exact absurd hc nofun
  · obtain rfl := Option.some.inj hc
    exact ⟨_, h.advance (h.declarations
      (fun hd => h.declaration (fun hd => h.statement limits.nesting hd) limits.nesting hd) _ _
      hstart), rfl⟩

end Maintained

end Draft

end Lox
