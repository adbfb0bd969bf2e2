import Lox.Compilation
import Mathlib.Logic.Function.Iterate
import Mathlib.Logic.Relation

/-!
# Compiling in steps

Whatever piece of source is compiled, the draft changes by a few kinds of step only. `Step` lists
them, and every function from drafts to drafts that compiling is made of takes a number of them.
What each step keeps is therefore kept by all of compiling, and has to be shown for each kind of
step only.

## Main definitions

* `Step`: one change of a draft, `Steps` a number of them.

## Main results

* `steps_expressionAt`, `steps_statement`, `steps_declaration`, `steps_declarations`: compiling is
  made of steps.
-/

namespace Lox

namespace Draft

/-- One change of a draft. The mark says whether to stall is among the changes. -/
inductive Step (stalls : Bool) : Draft → Draft → Prop where
  | report (d : Draft) (token : Token) (problem : Problem) : Step stalls d (d.report token problem)
  | advance (d : Draft) : Step stalls d d.advance
  | calm (d : Draft) : Step stalls d { d with panicking := false }
  | stall (d : Draft) (h : stalls = true) : Step stalls d { d with stalled := true }
  | write (d : Draft) (byte : UInt8) : Step stalls d (d.emitByte byte)
  | patch (d : Draft) (offset distance : Nat) :
      Step stalls d { d with chunk := d.chunk.patch offset distance }
  | constant (d : Draft) (value : Value) : Step stalls d { d with chunk := d.chunk.addConstant value }
  | intern (d : Draft) (text : String) :
      Step stalls d { d with interner := (d.interner.intern text).2 }
  | remember (d : Draft) (symbol : Symbol) (index : UInt8) :
      Step stalls d { d with strings := (d.strings.insert symbol index).2 }
  | scope (d : Draft) (scope : LocalScope) : Step stalls d { d with scope }

/-- A number of changes of a draft. -/
abbrev Steps (stalls : Bool) : Draft → Draft → Prop := Relation.ReflTransGen (Step stalls)

variable {stalls : Bool}

theorem Step.steps {d d' : Draft} (h : Step stalls d d') : Steps stalls d d' := .single h

theorem Steps.trans {d d' d'' : Draft} (h : Steps stalls d d') (h' : Steps stalls d' d'') :
    Steps stalls d d'' :=
  Relation.ReflTransGen.trans h h'

theorem Step.weaken {d d' : Draft} (h : Step false d d') : Step true d d' := by
  cases h with
  | stall h => exact .stall d rfl
  | report | advance | calm | write | patch | constant | intern | remember | scope => constructor

/-- Steps without stalling are steps. -/
theorem Steps.weaken {d d' : Draft} (h : Steps false d d') : Steps true d d' := by
  induction h with
  | refl => exact .refl
  | tail _ hstep ih => exact .tail ih hstep.weaken

variable (d : Draft)

/-! ### Tokens, reports and code -/

theorem steps_failAtPrevious (problem : Problem) : Steps stalls d (d.failAtPrevious problem) :=
  (Step.report d _ problem).steps

theorem steps_failAtCurrent (problem : Problem) : Steps stalls d (d.failAtCurrent problem) :=
  (Step.report d _ problem).steps

theorem steps_advance : Steps stalls d d.advance := (Step.advance d).steps

theorem steps_expect (kind : TokenKind) (what : Expectation) : Steps stalls d (d.expect kind what) := by
  rw [expect]
  split
  · exact steps_advance d
  · exact steps_failAtCurrent d _

theorem steps_emitByte (byte : UInt8) : Steps stalls d (d.emitByte byte) := (Step.write d byte).steps

theorem steps_emitOp (op : OpCode) : Steps stalls d (d.emitOp op) := steps_emitByte d _

theorem steps_emitOpByte (op : OpCode) (operand : UInt8) : Steps stalls d (d.emitOpByte op operand) :=
  (steps_emitOp d op).trans (steps_emitByte _ operand)

theorem steps_emitOps (ops : List OpCode) : Steps stalls d (ops.foldl emitOp d) := by
  induction ops generalizing d with
  | nil => exact .refl
  | cons op ops ih => exact (steps_emitOp d op).trans (ih _)

theorem steps_emitJump (op : OpCode) : Steps stalls d (d.emitJump op).2 :=
  ((steps_emitOp d op).trans (steps_emitByte _ _)).trans (steps_emitByte _ _)

theorem steps_patchJump (placeholder : Nat) : Steps stalls d (d.patchJump placeholder) := by
  rw [patchJump]
  split
  · exact (Step.patch d _ _).steps
  · exact steps_failAtPrevious d _

theorem steps_emitLoop (target : Nat) : Steps stalls d (d.emitLoop target) := by
  rw [emitLoop]
  refine (steps_emitOp d .loop).trans ?_
  split
  · exact (steps_emitByte _ _).trans (steps_emitByte _ _)
  · exact ((steps_failAtPrevious _ _).trans (steps_emitByte _ _)).trans (steps_emitByte _ _)

theorem steps_addConstant (value : Value) : Steps stalls d (d.addConstant value).2 := by
  rw [addConstant]
  split
  · exact (Step.constant d value).steps
  · exact steps_failAtPrevious d _

theorem steps_emitConstant (value : Value) : Steps stalls d (d.emitConstant value) :=
  (steps_addConstant d value).trans (steps_emitOpByte _ _ _)

theorem steps_stringConstant (text : String) : Steps stalls d (d.stringConstant text).2 := by
  rw [stringConstant]
  refine (Step.intern d text).steps.trans ?_
  simp only
  split
  · exact .refl
  · have hadd : Steps stalls _ _ := steps_addConstant
      { d with interner := (d.interner.intern text).2 } (.string (d.interner.intern text).1)
    split
    · next heq =>
      rw [heq] at hadd
      exact hadd.trans (Step.remember _ _ _).steps
    · next heq =>
      rw [heq] at hadd
      exact hadd

/-! ### Scopes -/

theorem steps_beginScope : Steps stalls d d.beginScope := (Step.scope d _).steps

theorem steps_endScope : Steps stalls d d.endScope := by
  refine (Step.scope d d.scope.leave).steps.trans ?_
  have hrepeat : ∀ (n : Nat) (d : Draft), Steps stalls d (Nat.repeat (emitOp · .pop) n d) := by
    intro n d
    induction n with
    | zero => exact .refl
    | succ n ih => exact ih.trans (steps_emitOp _ _)
  exact hrepeat _ _

theorem steps_declareLocal (name : String) : Steps stalls d (d.declareLocal name) := by
  rw [declareLocal]
  split
  · exact (Step.scope d _).steps
  · exact steps_failAtPrevious d _

theorem steps_completeLocal : Steps stalls d d.completeLocal := (Step.scope d _).steps

/-! ### Expressions -/

section Expressions

variable {expr : Precedence → Draft → Draft} (hexpr : ∀ level d, Steps stalls d (expr level d))

include hexpr

theorem steps_access (assignable : Bool) (get set : OpCode) (operand : UInt8) :
    Steps stalls d (access expr assignable get set operand d) := by
  rw [access]
  split
  · exact ((steps_advance d).trans (hexpr _ _)).trans (steps_emitOpByte _ _ _)
  · exact steps_emitOpByte d _ _

theorem steps_nameUse (assignable : Bool) : Steps stalls d (nameUse expr assignable d) := by
  rw [nameUse]
  split
  · exact steps_failAtPrevious d _
  · exact steps_access d hexpr _ _ _ _
  · exact (steps_stringConstant d _).trans (steps_access _ hexpr _ _ _ _)

theorem steps_operand (opening : Opening) (assignable : Bool) :
    Steps stalls d (operand expr opening assignable d) := by
  cases opening with
  | grouping => exact (hexpr _ d).trans (steps_expect _ _ _)
  | unary op => exact (hexpr _ d).trans (steps_emitOp _ _)
  | number => exact steps_emitConstant d _
  | string => exact (steps_stringConstant d _).trans (steps_emitOpByte _ _ _)
  | literal value => exact steps_emitOp d _
  | «variable» => exact steps_nameUse d hexpr _

theorem steps_conjunction : Steps stalls d (conjunction expr d) :=
  (((steps_emitJump d _).trans (steps_emitOp _ _)).trans (hexpr _ _)).trans (steps_patchJump _ _)

theorem steps_disjunction : Steps stalls d (disjunction expr d) :=
  (((((steps_emitJump d _).trans (steps_emitJump _ _)).trans (steps_patchJump _ _)).trans
    (steps_emitOp _ _)).trans (hexpr _ _)).trans (steps_patchJump _ _)

theorem steps_connect (connective : Connective) : Steps stalls d (connect expr connective d) := by
  cases connective with
  | binary op => exact (hexpr _ d).trans (steps_emitOps _ _)
  | and => exact steps_conjunction d hexpr
  | or => exact steps_disjunction d hexpr

theorem steps_connectives (level : Precedence) (bound : List Token) :
    Steps stalls d (connectives expr level bound d) := by
  induction bound generalizing d with
  | nil => exact .refl
  | cons t bound ih =>
    rw [connectives]
    split
    · exact .refl
    · split
      · exact ((steps_advance d).trans (steps_connect _ hexpr _)).trans (ih _)
      · exact .refl

theorem steps_operandAndConnectives (level : Precedence) :
    Steps stalls d (operandAndConnectives expr level d) := by
  rw [operandAndConnectives]
  split
  · exact steps_failAtPrevious d _
  · next opening _ =>
    have hoperand := steps_operand d hexpr opening (decide (level ≤ .assignment))
    have hconnectives := steps_connectives (operand expr opening (decide (level ≤ .assignment)) d)
      hexpr level (operand expr opening (decide (level ≤ .assignment)) d).ahead
    refine (hoperand.trans hconnectives).trans ?_
    simp only
    split
    · exact (steps_advance _).trans (steps_failAtPrevious _ _)
    · exact .refl

end Expressions

theorem steps_expressionAt (levels : Nat) (level : Precedence) :
    Steps stalls d (expressionAt levels level d) := by
  induction levels generalizing d level with
  | zero => exact steps_failAtCurrent d _
  | succ levels ih =>
    exact (steps_advance d).trans (steps_operandAndConnectives _ (fun l d => ih d l) level)

theorem steps_expression (levels : Nat) : Steps stalls d (d.expression levels) :=
  steps_expressionAt d levels .assignment

/-! ### Statements without a body -/

theorem steps_expressionStatement (levels : Nat) : Steps stalls d (d.expressionStatement levels) :=
  ((steps_expression d levels).trans (steps_expect _ _ _)).trans (steps_emitOp _ _)

theorem steps_printStatement (levels : Nat) : Steps stalls d (d.printStatement levels) :=
  ((steps_expression d levels).trans (steps_expect _ _ _)).trans (steps_emitOp _ _)

theorem steps_initialValue (levels : Nat) : Steps stalls d (d.initialValue levels) := by
  rw [initialValue]
  refine Steps.trans ?_ (steps_expect _ _ _)
  split
  · exact (steps_advance d).trans (steps_expression _ levels)
  · exact steps_emitOp d _

theorem steps_varDeclaration (levels : Nat) : Steps stalls d (d.varDeclaration levels) := by
  rw [varDeclaration]
  refine (steps_expect d .identifier .variableName).trans ?_
  simp only
  split
  · exact ((steps_stringConstant _ _).trans (steps_initialValue _ levels)).trans
      (steps_emitOpByte _ _ _)
  · exact ((steps_declareLocal _ _).trans (steps_initialValue _ levels)).trans
      (steps_completeLocal _)

/-! ### Passing and recovering -/

/-- At a footing, and after a semicolon, recovery is over. -/
theorem seekFooting_eq_self {d : Draft} (bound : List Token)
    (h : d.previous.kind = .semicolon ∨ isFooting d.current.kind = true) :
    seekFooting bound d = d := by
  cases bound with
  | nil => rfl
  | cons t bound =>
    rw [seekFooting]
    exact if_pos (by simpa [or_assoc] using .inr h)

/-- Anywhere else before the end recovery passes a token. -/
theorem seekFooting_cons {d : Draft} (t : Token) (bound : List Token)
    (hcurrent : d.current.kind ≠ .endOfSource)
    (h : ¬(d.previous.kind = .semicolon ∨ isFooting d.current.kind = true)) :
    seekFooting (t :: bound) d = seekFooting bound d.advance := by
  rw [seekFooting]
  exact if_neg (by simpa [check, hcurrent] using h)

theorem steps_seekFooting (bound : List Token) : Steps stalls d (seekFooting bound d) := by
  induction bound generalizing d with
  | nil => exact .refl
  | cons t bound ih =>
    rw [seekFooting]
    split
    · exact .refl
    · exact (steps_advance d).trans (ih _)

theorem steps_synchronize : Steps stalls d d.synchronize :=
  (Step.calm d).steps.trans (steps_seekFooting _ _)

omit d in
/-- Passing a block goes on by one token at a time, with a number of open braces that depends on the
kind of the token. -/
theorem passBlock_cons (kind : TokenKind) (braces : Nat) :
    ∃ n, ∀ (d : Draft) (t : Token) (bound : List Token), d.current.kind = kind →
      passBlock (t :: bound) braces d =
        if d.check .endOfSource then d
        else if n = 0 then d.advance else passBlock bound n d.advance := by
  cases kind with
  | leftBrace => exact ⟨braces + 1, fun d t bound hkind => by rw [passBlock, hkind]⟩
  | rightBrace => exact ⟨braces - 1, fun d t bound hkind => by rw [passBlock, hkind]⟩
  | _ => exact ⟨braces, fun d t bound hkind => by rw [passBlock, hkind]⟩

omit d in
/-- Passing a statement goes on by one token at a time, or by two if the second is an `else`. -/
theorem passStatement_cons (kind : TokenKind) (parens braces : Nat) :
    ∃ m n, ∀ (d : Draft) (t : Token) (bound : List Token), d.current.kind = kind →
      passStatement (t :: bound) parens braces d =
        if kind = .endOfSource ∨ (kind = .rightBrace ∧ braces = 0) then d
        else if m = 0 ∧ n = 0 ∧ (kind = .semicolon ∨ kind = .rightBrace) then
          if d.advance.check .kwElse then passStatement bound m n d.advance.advance else d.advance
        else passStatement bound m n d.advance := by
  cases kind with
  | leftParen => exact ⟨parens + 1, braces, fun d t bound hkind => by rw [passStatement, hkind]⟩
  | rightParen => exact ⟨parens - 1, braces, fun d t bound hkind => by rw [passStatement, hkind]⟩
  | leftBrace => exact ⟨parens, braces + 1, fun d t bound hkind => by rw [passStatement, hkind]⟩
  | rightBrace => exact ⟨parens, braces - 1, fun d t bound hkind => by rw [passStatement, hkind]⟩
  | _ => exact ⟨parens, braces, fun d t bound hkind => by rw [passStatement, hkind]⟩

omit d in
/-- Passing a block passes some tokens. -/
theorem exists_passBlock (bound : List Token) (braces : Nat) (d : Draft) :
    ∃ count, passBlock bound braces d = advance^[count] d := by
  induction bound generalizing d braces with
  | nil => exact ⟨0, rfl⟩
  | cons t bound ih =>
    obtain ⟨n, heq⟩ := passBlock_cons d.current.kind braces
    rw [heq d t bound rfl]
    split
    · exact ⟨0, rfl⟩
    · split
      · exact ⟨1, rfl⟩
      · obtain ⟨count, hcount⟩ := ih n d.advance
        exact ⟨count + 1, hcount⟩

omit d in
/-- Passing a statement passes some tokens. -/
theorem exists_passStatement (bound : List Token) (parens braces : Nat) (d : Draft) :
    ∃ count, passStatement bound parens braces d = advance^[count] d := by
  induction bound generalizing d parens braces with
  | nil => exact ⟨0, rfl⟩
  | cons t bound ih =>
    obtain ⟨m, n, heq⟩ := passStatement_cons d.current.kind parens braces
    rw [heq d t bound rfl]
    split
    · exact ⟨0, rfl⟩
    · split
      · split
        · obtain ⟨count, hcount⟩ := ih m n d.advance.advance
          exact ⟨count + 2, hcount⟩
        · exact ⟨1, rfl⟩
      · obtain ⟨count, hcount⟩ := ih m n d.advance
        exact ⟨count + 1, hcount⟩

theorem steps_iterate_advance (count : Nat) : Steps stalls d (advance^[count] d) :=
  Function.Iterate.rec (Steps stalls d) .refl (fun e h => h.trans (steps_advance e)) count

theorem steps_passBlock (bound : List Token) (braces : Nat) :
    Steps stalls d (passBlock bound braces d) := by
  obtain ⟨count, heq⟩ := exists_passBlock bound braces d
  rw [heq]
  exact steps_iterate_advance d count

theorem steps_passStatement (bound : List Token) (parens braces : Nat) :
    Steps stalls d (passStatement bound parens braces d) := by
  obtain ⟨count, heq⟩ := exists_passStatement bound parens braces d
  rw [heq]
  exact steps_iterate_advance d count

/-- A panicking draft goes on panicking as long as it only passes tokens. -/
theorem panicking_comeTo (tokens : List Token) :
    d.panicking → (d.comeTo tokens).panicking := by
  intro h
  induction tokens generalizing d with
  | nil => exact h
  | cons t tokens ih =>
    rw [comeTo]
    split
    · exact ih _ (by rw [report, if_pos h]; exact h)
    · exact h

theorem panicking_advance (h : d.panicking) : d.advance.panicking :=
  panicking_comeTo _ _ h

theorem panicking_iterate_advance (count : Nat) (h : d.panicking) : (advance^[count] d).panicking :=
  Function.Iterate.rec (fun e : Draft => e.panicking = true) h panicking_advance count

theorem panicking_passBlock (bound : List Token) (braces : Nat) (h : d.panicking) :
    (passBlock bound braces d).panicking := by
  obtain ⟨count, heq⟩ := exists_passBlock bound braces d
  rw [heq]
  exact panicking_iterate_advance d count h

theorem panicking_passStatement (bound : List Token) (parens braces : Nat) (h : d.panicking) :
    (passStatement bound parens braces d).panicking := by
  obtain ⟨count, heq⟩ := exists_passStatement bound parens braces d
  rw [heq]
  exact panicking_iterate_advance d count h

/-- Skipping takes steps if passing does. A draft that was panicking before is so after passing, so
putting the mark back changes something only if it was not. -/
theorem steps_skip {pass : Draft → Draft} (hpass : ∀ d, Steps stalls d (pass d))
    (hpanic : ∀ d : Draft, d.panicking → (pass d).panicking) : Steps stalls d (d.skip pass) := by
  rw [skip]
  refine ((steps_failAtPrevious d .nestingTooDeep).trans (hpass _)).trans ?_
  cases hd : d.panicking with
  | false => exact (Step.calm _).steps
  | true =>
    have hafter : (pass (d.failAtPrevious .nestingTooDeep)).panicking = true :=
      hpanic _ (by rw [failAtPrevious, report, if_pos hd]; exact hd)
    simp only [← hafter]
    exact .refl

theorem steps_skipBlock : Steps stalls d d.skipBlock :=
  steps_skip d (fun _ => steps_passBlock _ _ _) fun _ => panicking_passBlock _ _ _

theorem steps_skipStatement : Steps stalls d d.skipStatement :=
  steps_skip d (fun _ => steps_passStatement _ _ _ _) fun _ => panicking_passStatement _ _ _ _

/-! ### Statements with a body -/

section Bodies

variable (levels : Nat) {body : Draft → Draft} (hbody : ∀ d, Steps stalls d (body d))

include hbody

omit hbody in
/-- A condition in parentheses, and the jump that it decides. -/
theorem steps_condition (what : Expectation) :
    Steps stalls d (((((d.expect .leftParen what).expression levels).expect .rightParen
      .closeCondition).emitJump .jumpIfFalse).2.emitOp .pop) :=
  ((((steps_expect d _ _).trans (steps_expression _ levels)).trans (steps_expect _ _ _)).trans
    (steps_emitJump _ _)).trans (steps_emitOp _ _)

theorem steps_ifStatement : Steps stalls d (d.ifStatement levels body) := by
  rw [ifStatement]
  simp only
  refine Steps.trans ?_ (steps_patchJump _ _)
  split
  · exact ((((((steps_condition d levels .openIf).trans (hbody _)).trans (steps_emitJump _ _)).trans
      (steps_patchJump _ _)).trans (steps_emitOp _ _)).trans (steps_advance _)).trans (hbody _)
  · exact ((((steps_condition d levels .openIf).trans (hbody _)).trans (steps_emitJump _ _)).trans
      (steps_patchJump _ _)).trans (steps_emitOp _ _)

theorem steps_whileStatement : Steps stalls d (d.whileStatement levels body) :=
  ((((steps_condition d levels .openWhile).trans (hbody _)).trans (steps_emitLoop _ _)).trans
    (steps_patchJump _ _)).trans (steps_emitOp _ _)

omit hbody in
theorem steps_forInitial : Steps stalls d (d.forInitial levels) := by
  rw [forInitial]
  split
  · exact steps_advance d
  · split
    · exact (steps_advance d).trans (steps_varDeclaration _ levels)
    · exact steps_expressionStatement d levels

omit hbody in
theorem steps_forCondition : Steps stalls d (d.forCondition levels).2 := by
  rw [forCondition]
  split
  · exact steps_advance d
  · exact (((steps_expression d levels).trans (steps_expect _ _ _)).trans
      (steps_emitJump _ _)).trans (steps_emitOp _ _)

omit hbody in
theorem steps_forIncrement (condition : Nat) : Steps stalls d (d.forIncrement levels condition).2 := by
  rw [forIncrement]
  split
  · exact steps_advance d
  · exact (((((steps_emitJump d _).trans (steps_expression _ levels)).trans
      (steps_emitOp _ _)).trans (steps_expect _ _ _)).trans (steps_emitLoop _ _)).trans
      (steps_patchJump _ _)

theorem steps_forStatement : Steps stalls d (d.forStatement levels body) := by
  rw [forStatement]
  simp only
  refine Steps.trans ?_ (steps_endScope _)
  have hclauses : ∀ d, Steps stalls d _ := fun d =>
    (((steps_beginScope d).trans (steps_expect _ .leftParen .openFor)).trans
      (steps_forInitial _ levels)).trans (steps_forCondition _ levels)
  split
  · exact (((((hclauses d).trans (steps_forIncrement _ levels _)).trans (hbody _)).trans
      (steps_emitLoop _ _)).trans (steps_patchJump _ _)).trans (steps_emitOp _ _)
  · exact (((hclauses d).trans (steps_forIncrement _ levels _)).trans (hbody _)).trans
      (steps_emitLoop _ _)

omit hbody in
theorem steps_recovery : Steps stalls d (if d.panicking then d.synchronize else d) := by
  split
  · exact steps_synchronize d
  · exact .refl

theorem steps_declaration : Steps stalls d (d.declaration levels body) := by
  have hfirst : Steps stalls d
      (if d.check .kwVar then d.advance.varDeclaration levels else body d) := by
    split
    · exact (steps_advance d).trans (steps_varDeclaration _ levels)
    · exact hbody d
  exact hfirst.trans (steps_recovery _)

omit hbody in
/-- A declaration passes its first token at once if it is one of a variable or the statement does. -/
theorem steps_advance_declaration
    (h : d.check .kwVar = false → Steps stalls d.advance (body d)) :
    Steps stalls d.advance (d.declaration levels body) := by
  have hfirst : Steps stalls d.advance
      (if d.check .kwVar then d.advance.varDeclaration levels else body d) := by
    split
    · exact steps_varDeclaration _ levels
    · next hvar => exact h (Bool.eq_false_iff.mpr hvar)
  exact hfirst.trans (steps_recovery _)

end Bodies

/-! ### Blocks and statements -/

theorem steps_declarations {compile : Draft → Draft} (hcompile : ∀ d, Steps true d (compile d))
    (closing : TokenKind) (bound : List Token) :
    Steps true d (declarations compile closing bound d) := by
  induction bound generalizing d with
  | nil =>
    rw [declarations]
    split
    · exact .refl
    · exact (Step.stall d rfl).steps
  | cons t bound ih =>
    rw [declarations]
    split
    · exact .refl
    · exact (hcompile d).trans (ih _)

section Blocks

variable (levels : Nat) {body : Draft → Draft} (hbody : ∀ d, Steps true d (body d))

include hbody

theorem steps_block : Steps true d (d.block levels body) :=
  (steps_declarations d (fun d => steps_declaration d levels hbody) _ _).trans (steps_expect _ _ _)

omit hbody in
/-- What starts with no keyword and no brace is an expression statement. -/
theorem statementWith_eq_expressionStatement
    (h : d.current.kind ∉ [.kwPrint, .kwIf, .kwWhile, .kwFor, .leftBrace]) :
    d.statementWith levels body = d.expressionStatement levels := by
  rw [statementWith]
  simp only
  split <;> simp_all

/-- A statement passes its first token at once, unless that starts an expression and no level of
nesting is left for one. -/
theorem steps_advance_statementWith
    (h : levels ≠ 0 ∨ d.current.kind ∈ [.kwPrint, .kwIf, .kwWhile, .kwFor, .leftBrace]) :
    Steps true d.advance (d.statementWith levels body) := by
  have hnested : ∀ (compile : Nat → (Draft → Draft) → Draft → Draft),
      (∀ d, Steps true d (compile (levels - 1) body d)) → ∀ d : Draft,
      Steps true d (if levels ≤ 1 then d.skipStatement else compile (levels - 1) body d) := by
    intro compile hcompile d
    split
    · exact steps_skipStatement d
    · exact hcompile d
  by_cases hkind : d.current.kind ∈ [.kwPrint, .kwIf, .kwWhile, .kwFor, .leftBrace]
  · rw [statementWith]
    simp only
    split
    · exact steps_printStatement _ levels
    · exact hnested ifStatement (fun d => steps_ifStatement d _ hbody) _
    · exact hnested whileStatement (fun d => steps_whileStatement d _ hbody) _
    · exact hnested forStatement (fun d => steps_forStatement d _ hbody) _
    · refine (steps_beginScope _).trans (Steps.trans ?_ (steps_endScope _))
      split
      · exact steps_skipBlock _
      · exact steps_block _ _ hbody
    · simp_all
  · obtain ⟨inner, rfl⟩ := Nat.exists_eq_succ_of_ne_zero (h.resolve_right hkind)
    rw [statementWith_eq_expressionStatement d _ hkind]
    exact ((steps_operandAndConnectives _ (fun level d => steps_expressionAt d inner level) _).trans
      (steps_expect _ _ _)).trans (steps_emitOp _ _)

theorem steps_statementWith : Steps true d (d.statementWith levels body) := by
  by_cases hkind : d.current.kind ∈ [.kwPrint, .kwIf, .kwWhile, .kwFor, .leftBrace]
  · exact (steps_advance d).trans (steps_advance_statementWith d levels hbody (.inr hkind))
  · rw [statementWith_eq_expressionStatement d _ hkind]
    exact steps_expressionStatement d levels

end Blocks

theorem steps_statement (levels : Nat) : Steps true d (statement levels d) := by
  induction levels generalizing d with
  | zero => exact steps_statementWith d 0 fun d => .refl
  | succ levels ih => exact steps_statementWith d _ fun d => ih d

/-- With a level of nesting left a statement passes its first token at once. -/
theorem steps_advance_statement {levels : Nat} (h : levels ≠ 0) :
    Steps true d.advance (statement levels d) := by
  obtain ⟨inner, rfl⟩ := Nat.exists_eq_succ_of_ne_zero h
  exact steps_advance_statementWith d _ (fun d => steps_statement d inner) (.inl h)

end Draft

end Lox
