import Lox.Proofs.Draft.Sketch
import Lox.Proofs.Grammar

/-!
# Reading the tokens of an expression

If compiling an expression reports nothing, then the tokens that it has passed spell an expression
at the level it was compiled at, and the token it has come to is one that the expression does not go
on with.

What is written does not matter here, so most of what compiling does is passed over by the lemmas on
`Draft.ahead`.

## Main definitions

* `Draft.Parses`: a function passes the tokens of an expression.

## Main results

* `Draft.parses_expressionAt`: `expressionAt` does.
-/

namespace Lox

namespace Draft

variable {d : Draft}

/-! ### What passes no token -/

section Ahead

variable (d : Draft)

@[simp] theorem ahead_report (t : Token) (problem : Problem) :
    (d.report t problem).ahead = d.ahead := by
  rw [report]
  split <;> rfl

@[simp] theorem ahead_emitByte (byte : UInt8) : (d.emitByte byte).ahead = d.ahead := rfl

@[simp] theorem ahead_emitOp (op : OpCode) : (d.emitOp op).ahead = d.ahead := rfl

@[simp] theorem ahead_emitOpByte (op : OpCode) (operand : UInt8) :
    (d.emitOpByte op operand).ahead = d.ahead := rfl

@[simp] theorem ahead_emitOps (ops : List OpCode) : (ops.foldl emitOp d).ahead = d.ahead := by
  induction ops generalizing d with
  | nil => rfl
  | cons op ops ih => rw [List.foldl_cons, ih, ahead_emitOp]

@[simp] theorem ahead_emitJump (op : OpCode) : (d.emitJump op).2.ahead = d.ahead := rfl

@[simp] theorem ahead_patchJump (placeholder : Nat) : (d.patchJump placeholder).ahead = d.ahead := by
  rw [patchJump]
  split
  · rfl
  · exact ahead_report _ _ _

@[simp] theorem ahead_emitLoop (target : Nat) : (d.emitLoop target).ahead = d.ahead := by
  rw [emitLoop]
  split
  · rfl
  · exact ahead_report _ _ _

@[simp] theorem ahead_addConstant (value : Value) : (d.addConstant value).2.ahead = d.ahead := by
  rw [addConstant]
  split
  · rfl
  · exact ahead_report _ _ _

@[simp] theorem ahead_emitConstant (value : Value) : (d.emitConstant value).ahead = d.ahead :=
  ahead_addConstant d value

@[simp] theorem ahead_stringConstant (text : String) :
    (d.stringConstant text).2.ahead = d.ahead := by
  rw [stringConstant]
  have hadd := ahead_addConstant { d with interner := (d.interner.intern text).2 }
    (.string (d.interner.intern text).1)
  simp only
  split
  · rfl
  · split
    · next heq =>
      rw [heq] at hadd
      exact hadd
    · next heq =>
      rw [heq] at hadd
      exact hadd

@[simp] theorem ahead_beginScope : d.beginScope.ahead = d.ahead := rfl

@[simp] theorem ahead_endScope : d.endScope.ahead = d.ahead := by
  have hrepeat : ∀ (n : Nat) (d : Draft), (Nat.repeat (emitOp · .pop) n d).ahead = d.ahead := by
    intro n d
    induction n with
    | zero => rfl
    | succ n ih => exact ih
  exact hrepeat _ _

@[simp] theorem ahead_declareLocal (name : String) : (d.declareLocal name).ahead = d.ahead := by
  rw [declareLocal]
  split
  · rfl
  · exact ahead_report _ _ _

@[simp] theorem ahead_completeLocal : d.completeLocal.ahead = d.ahead := rfl

end Ahead

/-! ### Passing tokens -/

theorem Proper.current_kind (h : d.Proper) : d.current.kind = headKind d.ahead := by
  rw [current]
  cases d.ahead with
  | nil => exact h.last
  | cons t rest => rfl

theorem Proper.ahead_advance (h : d.Proper) : d.advance.ahead = d.ahead.tail := by
  rw [h.advance_eq]

/-- A token of a kind other than that of the end is ahead. -/
theorem Proper.exists_cons (h : d.Proper) (hkind : d.current.kind ≠ .endOfSource) :
    d.ahead = d.current :: d.advance.ahead ∧ d.current.IsProper := by
  cases hahead : d.ahead with
  | nil => exact absurd (h.current_kind_eq_end.mpr hahead) hkind
  | cons t rest =>
    have hcurrent : d.current = t := by rw [current, hahead, List.headD_cons]
    rw [h.ahead_advance, hahead, hcurrent, List.tail_cons]
    exact ⟨rfl, h.ahead t (hahead ▸ List.mem_cons_self ..)⟩

/-- A token that is expected has been passed, if nothing was reported. -/
theorem Proper.exists_of_expect (h : d.Proper) {kind : TokenKind} {what : Expectation}
    (hclean : (d.expect kind what).Clean) (hkind : kind ≠ .endOfSource) :
    ∃ t, d.ahead = t :: (d.expect kind what).ahead ∧ t.kind = kind := by
  rw [expect] at hclean ⊢
  by_cases hcheck : d.check kind = true
  · rw [if_pos hcheck]
    have hcurrent := kind_of_check hcheck
    exact ⟨d.current, (h.exists_cons (hcurrent ▸ hkind)).1, hcurrent⟩
  · rw [if_neg hcheck] at hclean
    exact absurd hclean (h.not_clean_report _ _)

/-! ### Operands -/

/-- The function passes the tokens of an expression, if it reports nothing. -/
def Parses (expr : Precedence → Draft → Draft) : Prop :=
  ∀ {p : Precedence} {d : Draft}, p ≤ .unary → d.Proper → (expr p d).Clean →
    ∃ e ts, d.ahead = ts ++ (expr p d).ahead ∧ Expr.Derives p e ts ∧
      Stops p (headKind (expr p d).ahead)

theorem follows_unary (kind : TokenKind) : Follows .unary kind := by
  intro c _
  cases c with
  | binary op => cases op <;> decide
  | and | or => decide

section Operands

variable {expr : Precedence → Draft → Draft} (hsteps : ∀ level d, Steps true d (expr level d))
  (hexpr : Parses expr)

include hsteps hexpr

omit hsteps in
/-- Using a name, an assignment is read where an equals sign follows. -/
theorem Proper.access (h : d.Proper) {assignable : Bool} {get set : OpCode} {place : UInt8}
    (hclean : (Draft.access expr assignable get set place d).Clean) :
    (assignable = true ∧ ∃ u value ts,
        d.ahead = u :: (ts ++ (Draft.access expr assignable get set place d).ahead) ∧
        u.kind = .equal ∧ Expr.Derives .assignment value ts ∧
        Stops .assignment (headKind (Draft.access expr assignable get set place d).ahead)) ∨
      (d.ahead = (Draft.access expr assignable get set place d).ahead ∧
        (assignable = true → headKind d.ahead ≠ .equal)) := by
  rw [Draft.access] at hclean ⊢
  by_cases hcheck : (assignable && d.check .equal) = true
  · rw [if_pos hcheck] at hclean ⊢
    rw [Bool.and_eq_true] at hcheck
    have hequal := kind_of_check hcheck.2
    have hvalue := (steps_emitOpByte _ _ _).clean hclean
    obtain ⟨e, ts, hahead, hderives, hstops⟩ :=
      hexpr (by decide) ((Step.advance d).proper h) hvalue
    refine .inl ⟨hcheck.1, d.current, e, ts, ?_, hequal, hderives, hstops⟩
    rw [(h.exists_cons (hequal ▸ (by rintro ⟨⟩))).1, hahead]
    rfl
  · rw [if_neg hcheck] at hclean ⊢
    refine .inr ⟨rfl, fun hassignable hequal => hcheck ?_⟩
    rw [hassignable, Bool.true_and, check, h.current_kind, hequal]
    rfl

omit hsteps in
theorem Proper.nameUse (h : d.Proper) {assignable : Bool}
    (hclean : (Draft.nameUse expr assignable d).Clean) :
    (assignable = true ∧ ∃ u value ts,
        d.ahead = u :: (ts ++ (Draft.nameUse expr assignable d).ahead) ∧
        u.kind = .equal ∧ Expr.Derives .assignment value ts ∧
        Stops .assignment (headKind (Draft.nameUse expr assignable d).ahead)) ∨
      (d.ahead = (Draft.nameUse expr assignable d).ahead ∧
        (assignable = true → headKind d.ahead ≠ .equal)) := by
  rw [Draft.nameUse] at hclean ⊢
  split at hclean
  · exact absurd hclean (h.not_clean_report _ _)
  · exact h.access hexpr hclean
  · have hproper := (steps_stringConstant d d.previous.lexeme).proper h
    have haccess := hproper.access hexpr hclean
    rwa [ahead_stringConstant] at haccess

/-- **Operands.** The tokens of an operand, its first one included, spell an expression that can be
a left operand of what follows. -/
theorem Proper.operand (h : d.Proper) {p : Precedence} (hp : p ≤ .unary) {t : Token}
    (ht : t.IsProper) {opening : Opening} (hopening : t.kind.opening? = some opening)
    (hclean : (Draft.operand expr opening (decide (p ≤ .assignment)) d).Clean) :
    ∃ e ts q, d.ahead = ts ++ (Draft.operand expr opening (decide (p ≤ .assignment)) d).ahead ∧
      Expr.Derives q e (t :: ts) ∧ p ≤ q ∧
      Follows q (headKind (Draft.operand expr opening (decide (p ≤ .assignment)) d).ahead) := by
  have hkind := TokenKind.opening?_eq_some_iff.mp hopening
  cases opening with
  | grouping =>
    have hinner := (steps_expect _ _ _).clean hclean
    obtain ⟨e, ts, hahead, hderives, -⟩ := hexpr (by decide) h hinner
    obtain ⟨u, hclose, hu⟩ := ((hsteps _ d).proper h).exists_of_expect hclean nofun
    refine ⟨.group e, ts ++ [u], .unary, ?_, .group hkind hderives hu, hp, follows_unary _⟩
    rw [hahead, hclose, List.append_assoc]
    rfl
  | unary op =>
    have hinner := (steps_emitOp _ _).clean hclean
    obtain ⟨e, ts, hahead, hderives, -⟩ := hexpr (Nat.le_refl _) h hinner
    exact ⟨.unary op e, ts, .unary, hahead, .unary (Nat.le_refl _) hkind hderives, hp,
      follows_unary _⟩
  | number =>
    refine ⟨_, [], .unary, ?_, .number hkind, hp, follows_unary _⟩
    exact (ahead_emitConstant d _).symm
  | string =>
    obtain ⟨text, htext⟩ := ht.quoted hkind
    refine ⟨_, [], .unary, ?_, .string hkind htext, hp, follows_unary _⟩
    exact (ahead_stringConstant d _).symm
  | literal v => exact ⟨_, [], .unary, rfl, .literal hkind, hp, follows_unary _⟩
  | «variable» =>
    rcases h.nameUse hexpr hclean with ⟨hassignable, u, e, ts, hahead, hu, hderives, hstops⟩ | hname
    · refine ⟨_, u :: ts, .assignment, hahead, .assign (Nat.le_refl _) hkind hu hderives,
        of_decide_eq_true hassignable, hstops.follows⟩
    · exact ⟨_, [], .unary, hname.1, .variable hkind, hp, follows_unary _⟩

end Operands

/-! ### Connectives -/

section Loop

variable {expr : Precedence → Draft → Draft} (hsteps : ∀ level d, Steps true d (expr level d))
  (hexpr : Parses expr)

/-- What may follow the right operand of a connective can take the whole as its left operand. -/
theorem follows_of_stops_rightLevel {c : Connective} {kind : TokenKind}
    (h : Stops c.rightLevel kind) : Follows c.precedence kind := by
  intro c' hc'
  have hlt : c'.precedence.rank < c.rightLevel.rank := Nat.lt_of_not_le (h.connective c' hc')
  cases c with
  | binary op =>
    have hnext : op.precedence.next.rank = op.precedence.rank + 1 := by cases op <;> rfl
    have hright : c'.precedence.rank < op.precedence.next.rank := hlt
    have hle : c'.precedence.rank ≤ op.precedence.rank := by omega
    cases c' with
    | binary op' => exact hle
    | and | or => cases op <;> decide
  | and | or =>
    cases c' with
    | binary op => cases op <;> exact absurd hlt (by decide)
    | and | or => first | decide | exact absurd hlt (by decide)

theorem rightLevel_le_unary (c : Connective) : c.rightLevel ≤ .unary := by
  cases c with
  | binary op => cases op <;> decide
  | and | or => decide

include hexpr

/-- The right operand of a connective. -/
theorem Proper.connect (h : d.Proper) {c : Connective}
    (hclean : (Draft.connect expr c d).Clean) :
    ∃ right rs, d.ahead = rs ++ (Draft.connect expr c d).ahead ∧
      Expr.Derives c.rightLevel right rs ∧
      Stops c.rightLevel (headKind (Draft.connect expr c d).ahead) := by
  -- What is written before and after the right operand passes no token.
  have hright : ∀ {d' : Draft} {f : Draft → Draft}, Steps true d d' → d'.ahead = d.ahead →
      (∀ d, Steps true d (f d)) → (∀ d, (f d).ahead = d.ahead) → (f (expr c.rightLevel d')).Clean →
      ∃ right rs, d.ahead = rs ++ (f (expr c.rightLevel d')).ahead ∧
        Expr.Derives c.rightLevel right rs ∧
        Stops c.rightLevel (headKind (f (expr c.rightLevel d')).ahead) := by
    intro d' f hbefore hahead hafter hkeep hclean
    obtain ⟨right, rs, hrs, hderives, hstops⟩ :=
      hexpr (rightLevel_le_unary c) (hbefore.proper h) ((hafter _).clean hclean)
    rw [hkeep, ← hahead]
    exact ⟨right, rs, hrs, hderives, hstops⟩
  cases c with
  | binary op =>
    exact hright .refl rfl (fun d => steps_emitOps d op.opCodes) (fun d => ahead_emitOps d _) hclean
  | and =>
    exact hright ((steps_emitJump d .jumpIfFalse).trans (steps_emitOp _ .pop)) rfl
      (fun d' => steps_patchJump d' (d.emitJump .jumpIfFalse).1) (fun d' => ahead_patchJump d' _)
      hclean
  | or =>
    refine hright ((((steps_emitJump d .jumpIfFalse).trans (steps_emitJump _ .jump)).trans
      (steps_patchJump _ (d.emitJump .jumpIfFalse).1)).trans (steps_emitOp _ .pop)) ?_
      (fun d' => steps_patchJump d' ((d.emitJump .jumpIfFalse).2.emitJump .jump).1)
      (fun d' => ahead_patchJump d' _) hclean
    simp

include hsteps

/-- **The loop over connectives** goes on from the tokens of a left operand to those of the whole
expression. -/
theorem Proper.connectives (h : d.Proper) {p q : Precedence} {e : Expr} {ts bound : List Token}
    (hderives : e.Derives q ts) (hpq : p ≤ q) (hfollows : Follows q (headKind d.ahead))
    (hbound : d.ahead.length ≤ bound.length)
    (hclean : (Draft.connectives expr p bound d).Clean) :
    ∃ e' us, d.ahead = us ++ (Draft.connectives expr p bound d).ahead ∧
      Expr.Derives p e' (ts ++ us) ∧
      ∀ c, (headKind (Draft.connectives expr p bound d).ahead).connective? = some c →
        ¬p ≤ c.precedence := by
  induction bound generalizing d q e ts with
  | nil =>
    have hahead : d.ahead = [] := List.length_eq_zero_iff.mp (Nat.le_zero.mp hbound)
    refine ⟨e, [], rfl, ?_, ?_⟩
    · rw [List.append_nil]
      exact hderives.mono hpq
    · rw [Draft.connectives, hahead]
      rintro connective ⟨⟩
  | cons b bound ih =>
    have hstay : (∀ c, (headKind d.ahead).connective? = some c → ¬p ≤ c.precedence) →
        ∃ e' us, d.ahead = us ++ d.ahead ∧ Expr.Derives p e' (ts ++ us) ∧
          ∀ c, (headKind d.ahead).connective? = some c → ¬p ≤ c.precedence := fun hstops =>
      ⟨e, [], rfl, by rw [List.append_nil]; exact hderives.mono hpq, hstops⟩
    rw [Draft.connectives, h.current_kind] at hclean ⊢
    cases hc : (headKind d.ahead).connective? with
    | none =>
      refine hstay fun c hc' => ?_
      rw [hc] at hc'
      exact absurd hc' (by rintro ⟨⟩)
    | some c =>
      rw [hc] at hclean
      simp only at hclean ⊢
      by_cases hp : p ≤ c.precedence
      · rw [if_pos hp] at hclean ⊢
        have hne : d.current.kind ≠ .endOfSource := by
          intro heq
          rw [← h.current_kind, heq] at hc
          exact absurd hc (by rintro ⟨⟩)
        obtain ⟨hcons, -⟩ := h.exists_cons hne
        have hadvance := (Step.advance d).proper h
        have hconnect := (steps_connectives _ hsteps p bound).clean hclean
        obtain ⟨right, rs, hrs, hright, hstops⟩ := hadvance.connect hexpr hconnect
        have hkind : d.current.kind = c.token := by
          rw [h.current_kind]
          exact TokenKind.connective?_eq_some_iff.mp hc
        have hwhole := Expr.Derives.connect (Nat.le_refl c.precedence.rank)
          (hderives.mono (hfollows c hc)) hkind hright
        have hlength : (Draft.connect expr c d.advance).ahead.length ≤ bound.length := by
          have htotal := congrArg List.length hcons
          have hpart := congrArg List.length hrs
          rw [List.length_cons] at htotal hbound
          rw [List.length_append] at hpart
          omega
        obtain ⟨e', us, hus, hderives', hend⟩ :=
          ih ((steps_connect _ hsteps c).proper hadvance) hwhole hp
            (follows_of_stops_rightLevel hstops) hlength hclean
        refine ⟨e', d.current :: rs ++ us, ?_, ?_, hend⟩
        · rw [List.append_assoc, ← hus, List.cons_append, ← hrs, ← hcons]
        · rwa [List.append_assoc] at hderives'
      · rw [if_neg hp] at hclean ⊢
        refine hstay fun c' hc' => ?_
        rw [hc] at hc'
        rwa [← Option.some.inj hc']

end Loop

/-! ### Expressions -/

/-- **Expressions.** If nothing is reported, the tokens passed spell an expression at the level, and
what follows does not go on with it. -/
theorem parses_expressionAt (levels : Nat) : Parses (expressionAt levels) := by
  induction levels with
  | zero =>
    intro p d _ h hclean
    exact absurd hclean (h.not_clean_report _ _)
  | succ levels ih =>
    intro p d hp h hclean
    have hsteps : ∀ p d, Steps true d _ := fun p d => steps_expressionAt d levels p
    have hadvance := (Step.advance d).proper h
    rw [expressionAt, operandAndConnectives] at hclean ⊢
    rw [previous_advance] at hclean ⊢
    cases hopening : d.current.kind.opening? with
    | none =>
      rw [hopening] at hclean
      exact absurd hclean (hadvance.not_clean_report _ _)
    | some opening =>
      rw [hopening] at hclean
      simp only at hclean ⊢
      have hoperand := steps_operand d.advance hsteps opening (decide (p ≤ .assignment))
      revert hclean
      generalize hd₁ : operand (expressionAt levels) opening (decide (p ≤ .assignment))
        d.advance = d₁ at hoperand
      generalize hd₂ : connectives (expressionAt levels) p d₁.ahead d₁ = d₂
      intro hclean
      have hproper₁ := hoperand.proper hadvance
      have hproper₂ : d₂.Proper := hd₂ ▸ (steps_connectives d₁ hsteps p _).proper hproper₁
      by_cases hcheck : (decide (p ≤ .assignment) && d₂.check .equal) = true
      · rw [if_pos hcheck] at hclean
        exact absurd hclean (((Step.advance d₂).proper hproper₂).not_clean_report _ _)
      rw [if_neg hcheck] at hclean ⊢
      subst hd₂
      have hclean₁ := (steps_connectives d₁ hsteps p _).clean hclean
      subst hd₁
      have hne : d.current.kind ≠ .endOfSource := by
        intro heq
        rw [heq] at hopening
        exact absurd hopening (by rintro ⟨⟩)
      obtain ⟨hcons, htoken⟩ := h.exists_cons hne
      obtain ⟨e, ts, q, hahead, hderives, hpq, hfollows⟩ :=
        hadvance.operand hsteps ih hp htoken hopening hclean₁
      obtain ⟨e', us, hahead', hderives', hend⟩ :=
        hproper₁.connectives hsteps ih hderives hpq hfollows (Nat.le_refl _) hclean
      refine ⟨e', d.current :: ts ++ us, ?_, hderives', hend, fun hassignment hequal => hcheck ?_⟩
      · rw [List.append_assoc, ← hahead', List.cons_append, ← hahead, ← hcons]
      · rw [Bool.and_eq_true, check, hproper₂.current_kind, hequal]
        exact ⟨decide_eq_true hassignment, rfl⟩

end Draft

end Lox
