import Lox.Proofs.Draft.Invariants

/-!
# Compiling expressions side by side

Two compilations of the same piece of source go through the same motions, whatever else is different
between them: the code before the piece, the constants, the places of the tokens. `Lockstep` says
what a relation between their drafts must keep for that, operation by operation. From then on the
drafts stay related as long as an expression is compiled.

The relation has two strengths: where it is `live`, an expression may start. A piece of source that
has been read past its end leaves the drafts related, but no longer live.

## Main definitions

* `Problem.isMissingBrace`: which problem no expression has.
* `Lockstep`: what a relation between drafts must keep.

## Main results

* `Lockstep.expressionAt`: compiling an expression keeps the drafts related.
-/

namespace Lox

/-- Whether a problem is that a block is not closed. -/
def Problem.isMissingBrace : Problem → Bool
  | expected .closeBlock => true
  | _ => false

namespace Draft

/-- A relation between the drafts of two compilations that compiling an expression keeps. The code of
the second is `shift` bytes ahead of that of the first, and the operands of its instructions are
related by `Operand`. An expression has many problems, but it never misses the end of a block. -/
structure Lockstep (Rel : Bool → Draft → Draft → Prop) (shift : Nat)
    (Operand : UInt8 → UInt8 → Prop) : Prop where
  weaken {d d' : Draft} : Rel true d d' → Rel false d d'
  operand (byte : UInt8) : Operand byte byte
  last {live : Bool} {d d' : Draft} : Rel live d d' →
    d.last.kind = .endOfSource ∧ d'.last.kind = .endOfSource
  previous {live : Bool} {d d' : Draft} : Rel live d d' →
    d.previous.kind = d'.previous.kind ∧ d.previous.lexeme = d'.previous.lexeme
  connective {live : Bool} {d d' : Draft} : Rel live d d' →
    d.current.kind.connective? = d'.current.kind.connective?
  check {live : Bool} {d d' : Draft} (kind : TokenKind) : Rel live d d' →
    kind = .equal ∨ kind = .rightParen → d.check kind = d'.check kind
  scope {live : Bool} {d d' : Draft} : Rel live d d' → d.scope = d'.scope
  size {live : Bool} {d d' : Draft} : Rel live d d' → d'.size = d.size + shift
  /-- Where an expression may start, passing its first token leads on, unless that starts none and
  is reported. -/
  start {d d' : Draft} : Rel true d d' → d.current.kind = d'.current.kind ∧
    if d.current.kind.opening?.isSome then Rel true d.advance d'.advance
    else Rel false (d.advance.failAtPrevious (.expected .expression))
      (d'.advance.failAtPrevious (.expected .expression))
  advance {live : Bool} {d d' : Draft} : Rel live d d' →
    d.current.kind.connective?.isSome ∨ d.check .equal ∨ d.check .rightParen →
    Rel true d.advance d'.advance
  failAtPrevious {live : Bool} {d d' : Draft} (problem : Problem) : Rel live d d' →
    problem.isMissingBrace = false →
    Rel live (d.failAtPrevious problem) (d'.failAtPrevious problem)
  failAtCurrent {live : Bool} {d d' : Draft} (problem : Problem) : Rel live d d' →
    problem.isMissingBrace = false →
    Rel live (d.failAtCurrent problem) (d'.failAtCurrent problem)
  emitByte {live : Bool} {d d' : Draft} {byte byte' : UInt8} : Rel live d d' →
    Operand byte byte' → Rel live (d.emitByte byte) (d'.emitByte byte')
  patch {live : Bool} {d d' : Draft} (offset distance : Nat) : Rel live d d' →
    Rel live { d with chunk := d.chunk.patch offset distance }
      { d' with chunk := d'.chunk.patch (offset + shift) distance }
  stringConstant {live : Bool} {d d' : Draft} (text : String) : Rel live d d' →
    Operand (d.stringConstant text).1 (d'.stringConstant text).1 ∧
      Rel live (d.stringConstant text).2 (d'.stringConstant text).2
  number {live : Bool} {d d' : Draft} (value : Float) : Rel live d d' →
    Operand ((d.addConstant (.number value)).1.getD 0)
        ((d'.addConstant (.number value)).1.getD 0) ∧
      Rel live (d.addConstant (.number value)).2 (d'.addConstant (.number value)).2

namespace Lockstep

variable {Rel : Bool → Draft → Draft → Prop} {shift : Nat} {Operand : UInt8 → UInt8 → Prop}
  {live : Bool} {d d' : Draft} (h : Lockstep Rel shift Operand)

include h

/-! ### Writing code -/

theorem emitOp (hd : Rel live d d') (op : OpCode) : Rel live (d.emitOp op) (d'.emitOp op) :=
  h.emitByte hd (h.operand _)

theorem emitOpByte (hd : Rel live d d') (op : OpCode) {byte byte' : UInt8}
    (hbyte : Operand byte byte') : Rel live (d.emitOpByte op byte) (d'.emitOpByte op byte') :=
  h.emitByte (h.emitOp hd op) hbyte

theorem emitOps (hd : Rel live d d') (ops : List OpCode) :
    Rel live (ops.foldl Draft.emitOp d) (ops.foldl Draft.emitOp d') := by
  induction ops generalizing d d' with
  | nil => exact hd
  | cons op ops ih => exact ih (h.emitOp hd op)

/-- Jumps are written at places that correspond. -/
theorem emitJump (hd : Rel live d d') (op : OpCode) :
    (d'.emitJump op).1 = (d.emitJump op).1 + shift ∧
      Rel live (d.emitJump op).2 (d'.emitJump op).2 := by
  have hsize := h.size hd
  refine ⟨?_, h.emitByte (h.emitByte (h.emitOp hd op) (h.operand _)) (h.operand _)⟩
  simp only [Draft.emitJump, Draft.emitOp, Draft.emitByte, Draft.size, Chunk.size, Chunk.write,
    Array.size_push] at hsize ⊢
  omega

/-- The distances of jumps are the same. -/
theorem patchJump (hd : Rel live d d') {place place' : Nat} (hplace : place' = place + shift) :
    Rel live (d.patchJump place) (d'.patchJump place') := by
  subst hplace
  have hdistance : d'.size - (place + shift) - 2 = d.size - place - 2 := by
    rw [h.size hd, Nat.add_sub_add_right]
  rw [Draft.patchJump, Draft.patchJump, hdistance]
  split
  · exact h.patch _ _ hd
  · exact h.failAtPrevious _ hd rfl

/-- A closing parenthesis may be missing. -/
theorem expect_rightParen (hd : Rel live d d') :
    Rel live (d.expect .rightParen .closeExpression) (d'.expect .rightParen .closeExpression) := by
  rw [expect, expect, ← h.check .rightParen hd (.inr rfl)]
  split
  · next hcheck =>
    cases live with
    | true => exact h.advance hd (.inr (.inr hcheck))
    | false => exact h.weaken (h.advance hd (.inr (.inr hcheck)))
  · exact h.failAtCurrent _ hd rfl

/-! ### Parts of expressions -/

section Parts

variable {expr : Precedence → Draft → Draft}
  (hexpr : ∀ level d d', Rel true d d' → Rel false (expr level d) (expr level d'))

include hexpr

theorem access (hd : Rel true d d') (assignable : Bool) (get set : OpCode) {operand operand' : UInt8}
    (hoperand : Operand operand operand') :
    Rel false (access expr assignable get set operand d)
      (access expr assignable get set operand' d') := by
  rw [Draft.access, Draft.access, ← h.check .equal hd (.inl rfl)]
  split
  · next hassign =>
    have hequal : d.check .equal = true := (Bool.and_eq_true _ _ ▸ hassign).2
    exact h.emitOpByte (hexpr _ _ _ (h.advance hd (.inr (.inl hequal)))) set hoperand
  · exact h.weaken (h.emitOpByte hd get hoperand)

theorem conjunction (hd : Rel true d d') :
    Rel false (conjunction expr d) (conjunction expr d') := by
  obtain ⟨hplace, hjump⟩ := h.emitJump hd .jumpIfFalse
  exact h.patchJump (hexpr _ _ _ (h.emitOp hjump .pop)) hplace

theorem disjunction (hd : Rel true d d') :
    Rel false (disjunction expr d) (disjunction expr d') := by
  obtain ⟨hother, hbranch⟩ := h.emitJump hd .jumpIfFalse
  obtain ⟨hdone, hjump⟩ := h.emitJump hbranch .jump
  exact h.patchJump (hexpr _ _ _ (h.emitOp (h.patchJump hjump hother) .pop)) hdone

theorem connect (hd : Rel true d d') (connective : Connective) :
    Rel false (connect expr connective d) (connect expr connective d') := by
  cases connective with
  | binary op => exact h.emitOps (hexpr _ _ _ hd) _
  | and => exact h.conjunction hexpr hd
  | or => exact h.disjunction hexpr hd

theorem nameUse (hd : Rel true d d') (assignable : Bool) :
    Rel false (nameUse expr assignable d) (nameUse expr assignable d') := by
  rw [Draft.nameUse, Draft.nameUse, ← (h.previous hd).2, ← h.scope hd]
  simp only
  split
  · exact h.weaken (h.failAtPrevious _ hd rfl)
  · exact h.access hexpr hd _ _ _ (h.operand _)
  · obtain ⟨hindex, hconstant⟩ := h.stringConstant d.previous.lexeme hd
    exact h.access hexpr hconstant _ _ _ hindex

theorem operand_of_opening (hd : Rel true d d') (opening : Opening) (assignable : Bool) :
    Rel false (Draft.operand expr opening assignable d)
      (Draft.operand expr opening assignable d') := by
  cases opening with
  | grouping => exact h.expect_rightParen (hexpr _ _ _ hd)
  | unary op => exact h.emitOp (hexpr _ _ _ hd) _
  | number =>
    rw [Draft.operand, Draft.operand, ← (h.previous hd).2]
    obtain ⟨hindex, hconstant⟩ := h.number (Number.parse d.previous.lexeme) hd
    exact h.weaken (h.emitOpByte hconstant .constant hindex)
  | string =>
    rw [Draft.operand, Draft.operand, ← (h.previous hd).2]
    obtain ⟨hindex, hconstant⟩ := h.stringConstant (unquote d.previous.lexeme) hd
    exact h.weaken (h.emitOpByte hconstant .constant hindex)
  | literal value => exact h.weaken (h.emitOp hd _)
  | «variable» => exact h.nameUse hexpr hd assignable

omit hexpr in
/-- Without tokens ahead there is no connective. -/
theorem connective_eq_none (hd : Rel live d d') (hahead : d.ahead = [] ∨ d'.ahead = []) :
    d.current.kind.connective? = none := by
  obtain hnil | hnil := hahead
  · rw [current, hnil, List.headD_nil, (h.last hd).1]
    rfl
  · rw [h.connective hd, current, hnil, List.headD_nil, (h.last hd).2]
    rfl

variable (hsteps : ∀ level d, Steps true d (expr level d))

include hsteps

/-- The bounds on the number of connectives need not be the same, as long as both suffice. -/
theorem connectives (hd : Rel false d d') (level : Precedence) {bound bound' : List Token}
    (hbound : d.ahead.length ≤ bound.length) (hbound' : d'.ahead.length ≤ bound'.length) :
    Rel false (connectives expr level bound d) (connectives expr level bound' d') := by
  have hnone : ∀ (d : Draft) (bound : List Token), d.current.kind.connective? = none →
      Draft.connectives expr level bound d = d := by
    intro d bound hd
    cases bound with
    | nil => rfl
    | cons t bound => rw [Draft.connectives, hd]
  induction bound generalizing bound' d d' with
  | nil =>
    have hend := h.connective_eq_none hd (.inl (List.eq_nil_of_length_eq_zero (Nat.le_zero.mp hbound)))
    rw [hnone d _ hend, hnone d' _ (h.connective hd ▸ hend)]
    exact hd
  | cons t bound ih =>
    cases hconnective : d.current.kind.connective? with
    | none =>
      rw [hnone d _ hconnective, hnone d' _ (h.connective hd ▸ hconnective)]
      exact hd
    | some connective =>
      have hahead : ¬(d.ahead = [] ∨ d'.ahead = []) := by
        intro hend
        rw [h.connective_eq_none hd hend] at hconnective
        cases hconnective
      obtain ⟨hnil, hnil'⟩ := not_or.mp hahead
      cases bound' with
      | nil => exact absurd (List.eq_nil_of_length_eq_zero (Nat.le_zero.mp hbound')) hnil'
      | cons t' bound' =>
        have hconnective' := (h.connective hd).symm.trans hconnective
        rw [Draft.connectives, Draft.connectives, hconnective, hconnective']
        simp only
        split
        · have hlt := ahead_lt_of_steps hnil (steps_connect d.advance hsteps connective)
          have hlt' := ahead_lt_of_steps hnil' (steps_connect d'.advance hsteps connective)
          rw [List.length_cons] at hbound hbound'
          exact ih (h.connect hexpr (h.advance hd (.inl (by rw [hconnective]; rfl))) connective)
            (by omega) (by omega)
        · exact hd

theorem operandAndConnectives (hd : Rel true d d') (hopening : d.previous.kind.opening?.isSome)
    (level : Precedence) :
    Rel false (operandAndConnectives expr level d) (operandAndConnectives expr level d') := by
  obtain ⟨opening, hopening⟩ := Option.isSome_iff_exists.mp hopening
  have hopening' := (congrArg TokenKind.opening? (h.previous hd).1).symm.trans hopening
  rw [Draft.operandAndConnectives, Draft.operandAndConnectives, hopening, hopening']
  simp only
  have hwhole := h.connectives hexpr hsteps
    (h.operand_of_opening hexpr hd opening (decide (level ≤ .assignment))) level
    (Nat.le_refl _) (Nat.le_refl _)
  rw [← h.check .equal hwhole (.inl rfl)]
  split
  · next hassign =>
    exact h.weaken (h.failAtPrevious _
      (h.advance hwhole (.inr (.inl (Bool.and_eq_true _ _ ▸ hassign).2))) rfl)
  · exact hwhole

end Parts

/-! ### Expressions -/

/-- What comes behind the first token of an expression keeps the drafts related. -/
theorem expressionAt_succ {levels : Nat} (level : Precedence)
    (hexpr : ∀ level d d', Rel true d d' →
      Rel false (expressionAt levels level d) (expressionAt levels level d'))
    (hkind : d.current.kind = d'.current.kind)
    (hstart : if d.current.kind.opening?.isSome then Rel true d.advance d'.advance
      else Rel false (d.advance.failAtPrevious (.expected .expression))
        (d'.advance.failAtPrevious (.expected .expression))) :
    Rel false (expressionAt (levels + 1) level d) (expressionAt (levels + 1) level d') := by
  rw [Draft.expressionAt, Draft.expressionAt]
  by_cases hopening : d.current.kind.opening?.isSome = true
  · rw [if_pos hopening] at hstart
    exact h.operandAndConnectives hexpr (fun level d => steps_expressionAt d levels level) hstart
      (by rwa [previous_advance]) level
  · rw [if_neg hopening] at hstart
    have hnone : d.advance.previous.kind.opening? = none := by
      rwa [previous_advance, ← Option.not_isSome_iff_eq_none]
    have hnone' : d'.advance.previous.kind.opening? = none := by
      rwa [previous_advance, ← hkind, ← Option.not_isSome_iff_eq_none]
    rw [Draft.operandAndConnectives, Draft.operandAndConnectives, hnone, hnone']
    exact hstart

/-- **Compiling an expression** keeps the drafts related. -/
theorem expressionAt (levels : Nat) (level : Precedence) (hd : Rel true d d') :
    Rel false (expressionAt levels level d) (expressionAt levels level d') := by
  induction levels generalizing d d' level with
  | zero => exact h.weaken (h.failAtCurrent _ hd rfl)
  | succ levels ih =>
    obtain ⟨hkind, hstart⟩ := h.start hd
    exact h.expressionAt_succ level (fun level d d' hd => ih level hd) hkind hstart

end Lockstep

end Draft

end Lox
