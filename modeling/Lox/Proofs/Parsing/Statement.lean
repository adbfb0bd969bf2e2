import Lox.Proofs.Parsing.Expression
import Lox.Proofs.Translation.Statement

/-!
# Reading the tokens of a statement

If compiling a statement or a declaration reports nothing and does not stall, then the tokens that
it has passed spell one.

## Main definitions

* `Draft.ParsesStatements`: a function passes the tokens of a statement.

## Main results

* `Draft.parses_statement`: `statement` does.
* `Draft.Proper.declarations`: a sequence of declarations.
-/

namespace Lox

namespace Draft

variable {d : Draft} {levels : Nat}

/-! ### Statements without a body -/

/-- An expression up to a token that is expected after it. -/
theorem Proper.expressionUpTo (h : d.Proper) {kind : TokenKind} {what : Expectation}
    (hclean : ((d.expression levels).expect kind what).Clean) (hkind : kind ≠ .endOfSource) :
    ∃ e ts u, d.ahead = ts ++ u :: ((d.expression levels).expect kind what).ahead ∧
      Expr.Derives .assignment e ts ∧ u.kind = kind := by
  have hinner := (steps_expect _ _ _).clean hclean
  obtain ⟨e, ts, hahead, hderives, -⟩ := parses_expressionAt levels (by decide) h hinner
  obtain ⟨u, hend, hu⟩ :=
    ((steps_expression d levels).proper h).exists_of_expect hclean hkind
  exact ⟨e, ts, u, by rw [← hend]; exact hahead, hderives, hu⟩

/-- The initial value of a variable after its name, which is `t`. -/
theorem Proper.initialValue (h : d.Proper) (hclean : (d.initialValue levels).Clean) {t : Token}
    (ht : t.kind = .identifier) :
    ∃ value us, d.ahead = us ++ (d.initialValue levels).ahead ∧
      Decl.DerivesVar t.lexeme value (t :: us) := by
  rw [Draft.initialValue] at hclean ⊢
  by_cases hcheck : d.check .equal = true
  · rw [if_pos hcheck] at hclean ⊢
    have hequal := kind_of_check hcheck
    obtain ⟨e, ts, v, hahead, hderives, hv⟩ :=
      ((Step.advance d).proper h).expressionUpTo hclean (by rintro ⟨⟩)
    refine ⟨some e, d.current :: (ts ++ [v]), ?_, .initialized ht hequal hderives hv⟩
    rw [(h.exists_cons (hequal ▸ (by rintro ⟨⟩))).1, hahead]
    simp
  · rw [if_neg hcheck] at hclean ⊢
    obtain ⟨u, hahead, hu⟩ :=
      ((steps_emitOp d .nil).proper h).exists_of_expect hclean (by rintro ⟨⟩)
    exact ⟨none, [u], hahead, .plain ht hu⟩

/-- The declaration of a variable after its keyword. -/
theorem Proper.varDeclaration (h : d.Proper) (hclean : (d.varDeclaration levels).Clean) :
    ∃ name value ts, d.ahead = ts ++ (d.varDeclaration levels).ahead ∧
      Decl.DerivesVar name value ts := by
  have hexpect := (steps_expect d .identifier .variableName).proper h
  have hrest : ∀ {d' d'' : Draft} {f : Draft → Draft},
      Steps true (d.expect .identifier .variableName) d' →
      d'.ahead = (d.expect .identifier .variableName).ahead → (∀ d, Steps true d (f d)) →
      (∀ d, (f d).ahead = d.ahead) → d'' = f (d'.initialValue levels) → d''.Clean →
      ∃ name value ts, d.ahead = ts ++ d''.ahead ∧ Decl.DerivesVar name value ts := by
    rintro d' _ f hbefore hahead hafter hkeep rfl hclean
    have hvalue := (hafter _).clean hclean
    have hname := (hbefore.trans (steps_initialValue d' levels)).clean hvalue
    obtain ⟨t, ht, hkind⟩ := h.exists_of_expect hname nofun
    obtain ⟨value, us, hus, hderives⟩ := (hbefore.proper hexpect).initialValue hvalue hkind
    refine ⟨t.lexeme, value, t :: us, ?_, hderives⟩
    rw [hkeep, ht, ← hahead, hus]
    rfl
  rw [Draft.varDeclaration] at hclean ⊢
  simp only at hclean ⊢
  split at hclean
  · next hglobal =>
    rw [if_pos hglobal]
    exact hrest (steps_stringConstant _ _) (ahead_stringConstant _ _)
      (fun d => steps_emitOpByte d .defineGlobal _) (fun d => ahead_emitOpByte d _ _) rfl hclean
  · next hlocal =>
    rw [if_neg hlocal]
    exact hrest (steps_declareLocal _ _) (ahead_declareLocal _ _) steps_completeLocal
      ahead_completeLocal rfl hclean

/-! ### Statements with a body -/

/-- The function passes the tokens of a statement, if it reports nothing and does not stall. An
`else` is left over only if it does not belong to the statement. -/
def ParsesStatements (body : Draft → Draft) : Prop :=
  ∀ {d : Draft}, d.Proper → (body d).Clean → (body d).stalled = false →
    ∃ st ts, d.ahead = ts ++ (body d).ahead ∧ Stmt.Derives st ts ∧
      (st.endsOpen = true → headKind (body d).ahead ≠ .kwElse)

/-- A condition in parentheses. -/
theorem Proper.condition (h : d.Proper) {what : Expectation}
    (hclean : (((d.expect .leftParen what).expression levels).expect .rightParen
      .closeCondition).Clean) :
    ∃ u e ts v, d.ahead = u :: (ts ++ v ::
        (((d.expect .leftParen what).expression levels).expect .rightParen
          .closeCondition).ahead) ∧
      u.kind = .leftParen ∧ Expr.Derives .assignment e ts ∧ v.kind = .rightParen := by
  have hopen := ((steps_expression _ levels).trans (steps_expect _ _ _)).clean hclean
  obtain ⟨u, hahead, hu⟩ := h.exists_of_expect hopen nofun
  obtain ⟨e, ts, v, hahead', hderives, hv⟩ :=
    ((steps_expect d .leftParen what).proper h).expressionUpTo hclean nofun
  exact ⟨u, e, ts, v, by rw [hahead, hahead'], hu, hderives, hv⟩

theorem ahead_closeLoop (again : Nat) (done : Option Nat) (d : Draft) :
    (closeLoop again done d).ahead = d.ahead := by
  cases done with
  | none => exact ahead_emitLoop d again
  | some done => simp [closeLoop]

section Bodies

variable {body : Draft → Draft} (hsteps : ∀ d, Steps true d (body d)) (hbody : ParsesStatements body)

include hbody

/-- The branch after an `else`, or no branch where there is no `else`. -/
theorem Proper.elseBranch (h : d.Proper) (hclean : (Draft.elseBranch body d).Clean)
    (hrunning : (Draft.elseBranch body d).stalled = false) :
    (d.ahead = (Draft.elseBranch body d).ahead ∧ headKind d.ahead ≠ .kwElse) ∨
      ∃ w st us, d.ahead = w :: (us ++ (Draft.elseBranch body d).ahead) ∧ w.kind = .kwElse ∧
        Stmt.Derives st us ∧
        (st.endsOpen = true → headKind (Draft.elseBranch body d).ahead ≠ .kwElse) := by
  rw [Draft.elseBranch] at hclean hrunning ⊢
  by_cases hcheck : d.check .kwElse = true
  · rw [if_pos hcheck] at hclean hrunning ⊢
    have helse := kind_of_check hcheck
    obtain ⟨st, us, hus, hderives, hopen⟩ := hbody ((Step.advance d).proper h) hclean hrunning
    refine .inr ⟨d.current, st, us, ?_, helse, hderives, hopen⟩
    rw [(h.exists_cons (helse ▸ (by rintro ⟨⟩))).1, hus]
  · rw [if_neg hcheck]
    refine .inl ⟨rfl, fun heq => hcheck ?_⟩
    rw [check, h.current_kind, heq]
    rfl

include hsteps

/-- An if statement after its keyword, which is `t`. -/
theorem Proper.ifStatement (h : d.Proper) (hclean : (d.ifStatement levels body).Clean)
    (hrunning : (d.ifStatement levels body).stalled = false) {t : Token} (ht : t.kind = .kwIf) :
    ∃ st ts, d.ahead = ts ++ (d.ifStatement levels body).ahead ∧ Stmt.Derives st (t :: ts) ∧
      (st.endsOpen = true → headKind (d.ifStatement levels body).ahead ≠ .kwElse) := by
  have hwhole : d.ifStatement levels body = ifRest body
      (((((d.expect .leftParen .openIf).expression levels).expect .rightParen
        .closeCondition).emitJump .jumpIfFalse).1)
      (body (((((d.expect .leftParen .openIf).expression levels).expect .rightParen
        .closeCondition).emitJump .jumpIfFalse).2.emitOp .pop)) := rfl
  have hcondition : Steps true d _ := steps_condition d levels .openIf
  have hjump : ∀ c : Draft, Steps true c _ := fun c =>
    (steps_emitJump c .jumpIfFalse).trans (steps_emitOp _ .pop)
  rw [hwhole] at hclean hrunning ⊢
  have hclean₁ := (steps_ifRest hsteps _ _).clean hclean
  have hrunning₁ := (steps_ifRest hsteps _ _).running hrunning
  obtain ⟨u, e, ts, v, hahead, hu, he, hv⟩ :=
    h.condition ((hjump _).clean ((hsteps _).clean hclean₁))
  obtain ⟨st, us, hus, hst, hopen⟩ := hbody (hcondition.proper h) hclean₁ hrunning₁
  rw [ifRest] at hclean hrunning ⊢
  have hbranch := (((hcondition.trans (hsteps _)).trans (steps_emitJump _ .jump)).trans
    (steps_patchJump _ ((((d.expect .leftParen .openIf).expression levels).expect .rightParen
      .closeCondition).emitJump .jumpIfFalse).1)).trans (steps_emitOp _ .pop)
  have helse := (hbranch.proper h).elseBranch hbody ((steps_patchJump _ _).clean hclean)
    ((steps_patchJump _ _).running hrunning)
  rw [ahead_emitOp, ahead_patchJump, ahead_emitJump] at helse
  rw [ahead_emitOp, ahead_emitJump] at hus
  rw [ahead_patchJump]
  rcases helse with ⟨hnone, hnoelse⟩ | ⟨w, st', vs, hvs, hw, hst', hopen'⟩
  · refine ⟨.ifThen e st, u :: (ts ++ v :: us), ?_, .ifThen ht hu he hv hst, fun _ => ?_⟩
    · rw [hahead, hus, hnone]
      simp
    · rwa [← hnone]
  · have hnearest : st.endsOpen = false := by
      refine Bool.eq_false_iff.mpr fun hends => hopen hends ?_
      rw [hvs]
      exact hw
    refine ⟨.ifElse e st st', u :: (ts ++ v :: (us ++ w :: vs)), ?_,
      .ifElse ht hu he hv hst hnearest hw hst', hopen'⟩
    rw [hahead, hus, hvs]
    simp

/-- A while statement after its keyword, which is `t`. -/
theorem Proper.whileStatement (h : d.Proper) (hclean : (d.whileStatement levels body).Clean)
    (hrunning : (d.whileStatement levels body).stalled = false) {t : Token}
    (ht : t.kind = .kwWhile) :
    ∃ st ts, d.ahead = ts ++ (d.whileStatement levels body).ahead ∧ Stmt.Derives st (t :: ts) ∧
      (st.endsOpen = true → headKind (d.whileStatement levels body).ahead ≠ .kwElse) := by
  have hwhole : d.whileStatement levels body = closeLoop d.size
      (some ((((d.expect .leftParen .openWhile).expression levels).expect .rightParen
        .closeCondition).emitJump .jumpIfFalse).1)
      (body (((((d.expect .leftParen .openWhile).expression levels).expect .rightParen
        .closeCondition).emitJump .jumpIfFalse).2.emitOp .pop)) := rfl
  have hjump : ∀ c : Draft, Steps true c _ := fun c =>
    (steps_emitJump c .jumpIfFalse).trans (steps_emitOp _ .pop)
  rw [hwhole] at hclean hrunning ⊢
  have hclean₁ := (steps_closeLoop _ _ _).clean hclean
  have hrunning₁ := (steps_closeLoop _ _ _).running hrunning
  obtain ⟨u, e, ts, v, hahead, hu, he, hv⟩ :=
    h.condition ((hjump _).clean ((hsteps _).clean hclean₁))
  obtain ⟨st, us, hus, hst, hopen⟩ :=
    hbody ((steps_condition d levels .openWhile).proper h) hclean₁ hrunning₁
  rw [ahead_emitOp, ahead_emitJump] at hus
  rw [ahead_closeLoop]
  refine ⟨.whileLoop e st, u :: (ts ++ v :: us), ?_, .whileLoop ht hu he hv hst, hopen⟩
  rw [hahead, hus]
  simp

omit hsteps hbody in
/-- The first clause of a for statement. -/
theorem Proper.forInitial (h : d.Proper) (hclean : (d.forInitial levels).Clean) :
    ∃ first ts, d.ahead = ts ++ (d.forInitial levels).ahead ∧ ForInit.Derives first ts := by
  rw [Draft.forInitial] at hclean ⊢
  by_cases hsemicolon : d.check .semicolon = true
  · rw [if_pos hsemicolon]
    have hkind := kind_of_check hsemicolon
    exact ⟨.none, [d.current], (h.exists_cons (hkind ▸ (by rintro ⟨⟩))).1, .none hkind⟩
  rw [if_neg hsemicolon] at hclean ⊢
  by_cases hvar : d.check .kwVar = true
  · rw [if_pos hvar] at hclean ⊢
    have hkind := kind_of_check hvar
    obtain ⟨name, value, ts, hts, hderives⟩ :=
      ((Step.advance d).proper h).varDeclaration hclean
    refine ⟨.var name value, d.current :: ts, ?_, .var hkind hderives⟩
    rw [(h.exists_cons (hkind ▸ (by rintro ⟨⟩))).1, hts]
    rfl
  · rw [if_neg hvar] at hclean ⊢
    obtain ⟨e, ts, u, hahead, he, hu⟩ :=
      h.expressionUpTo ((steps_emitOp _ .pop).clean hclean) (by rintro ⟨⟩)
    refine ⟨.expression e, ts ++ [u], ?_, .expression he hu⟩
    rw [hahead]
    simp [expressionStatement]

omit hsteps hbody in
/-- The condition of a for statement, up to its semicolon. -/
theorem Proper.forCondition (h : d.Proper) (hclean : (d.forCondition levels).2.Clean) :
    ∃ condition ts v, d.ahead = ts ++ v :: (d.forCondition levels).2.ahead ∧
      Expr.DerivesOption condition ts ∧ v.kind = .semicolon := by
  rw [Draft.forCondition] at hclean ⊢
  by_cases hsemicolon : d.check .semicolon = true
  · rw [if_pos hsemicolon]
    have hkind := kind_of_check hsemicolon
    exact ⟨none, [], d.current, (h.exists_cons (hkind ▸ (by rintro ⟨⟩))).1, .none, hkind⟩
  · rw [if_neg hsemicolon] at hclean ⊢
    have hexpect := ((steps_emitJump _ .jumpIfFalse).trans (steps_emitOp _ .pop)).clean hclean
    obtain ⟨e, ts, v, hahead, he, hv⟩ := h.expressionUpTo hexpect (by rintro ⟨⟩)
    exact ⟨some e, ts, v, hahead, .some he, hv⟩

omit hsteps hbody in
/-- The last clause of a for statement, up to its parenthesis. -/
theorem Proper.forIncrement (h : d.Proper) {start : Nat}
    (hclean : (d.forIncrement levels start).2.Clean) :
    ∃ increment ts w, d.ahead = ts ++ w :: (d.forIncrement levels start).2.ahead ∧
      Expr.DerivesOption increment ts ∧ w.kind = .rightParen := by
  rw [Draft.forIncrement] at hclean ⊢
  by_cases hparen : d.check .rightParen = true
  · rw [if_pos hparen]
    have hkind := kind_of_check hparen
    exact ⟨none, [], d.current, (h.exists_cons (hkind ▸ (by rintro ⟨⟩))).1, .none, hkind⟩
  · rw [if_neg hparen] at hclean ⊢
    simp only at hclean ⊢
    rw [ahead_patchJump, ahead_emitLoop]
    have hexpect := ((steps_emitLoop _ _).trans (steps_patchJump _ _)).clean hclean
    have hjump : Steps true d _ := steps_emitJump d .jump
    have hexpression := (steps_emitOp _ .pop).clean ((steps_expect _ _ _).clean hexpect)
    obtain ⟨e, ts, hahead, he, -⟩ :=
      parses_expressionAt levels (by decide) (hjump.proper h) hexpression
    obtain ⟨w, hw, hkind⟩ := (((hjump.trans (steps_expression _ levels)).trans
      (steps_emitOp _ .pop)).proper h).exists_of_expect hexpect (by rintro ⟨⟩)
    refine ⟨some e, ts, w, ?_, .some he, hkind⟩
    rw [← hw]
    exact hahead

/-- A for statement after its first clause. -/
theorem Proper.loopRest (h : d.Proper) (hclean : (Draft.loopRest levels body d).Clean)
    (hrunning : (Draft.loopRest levels body d).stalled = false) :
    ∃ condition increment st cs v is w us,
      d.ahead = cs ++ v :: (is ++ w :: (us ++ (Draft.loopRest levels body d).ahead)) ∧
      Expr.DerivesOption condition cs ∧ v.kind = .semicolon ∧ Expr.DerivesOption increment is ∧
      w.kind = .rightParen ∧ Stmt.Derives st us ∧
      (st.endsOpen = true → headKind (Draft.loopRest levels body d).ahead ≠ .kwElse) := by
  rw [Draft.loopRest, ahead_closeLoop] at *
  have hbodyClean := (steps_closeLoop _ _ _).clean hclean
  have hincrement := (hsteps _).clean hbodyClean
  have hproper := (steps_forCondition d levels).proper h
  obtain ⟨condition, cs, v, hcs, hcondition, hv⟩ :=
    h.forCondition ((steps_forIncrement _ levels d.size).clean hincrement)
  obtain ⟨increment, is, w, his, hderives, hw⟩ := hproper.forIncrement hincrement
  obtain ⟨st, us, hus, hst, hopen⟩ := hbody ((steps_forIncrement _ levels d.size).proper hproper)
    hbodyClean ((steps_closeLoop _ _ _).running hrunning)
  refine ⟨condition, increment, st, cs, v, is, w, us, ?_, hcondition, hv, hderives, hw, hst, hopen⟩
  rw [hcs, his, hus]

/-- A for statement after its keyword, which is `t`. -/
theorem Proper.forStatement (h : d.Proper) (hclean : (d.forStatement levels body).Clean)
    (hrunning : (d.forStatement levels body).stalled = false) {t : Token} (ht : t.kind = .kwFor) :
    ∃ st ts, d.ahead = ts ++ (d.forStatement levels body).ahead ∧ Stmt.Derives st (t :: ts) ∧
      (st.endsOpen = true → headKind (d.forStatement levels body).ahead ≠ .kwElse) := by
  have hwhole : d.forStatement levels body =
      (Draft.loopRest levels body ((d.beginScope.expect .leftParen .openFor).forInitial
        levels)).endScope := rfl
  rw [hwhole, ahead_endScope] at *
  have hscope := (steps_beginScope d).proper h
  have hexpect := (steps_expect d.beginScope .leftParen .openFor).proper hscope
  have hloop := (steps_endScope _).clean hclean
  have hinitial := (steps_loopRest hsteps _).clean hloop
  obtain ⟨u, hu, hopening⟩ :=
    hscope.exists_of_expect ((steps_forInitial _ levels).clean hinitial) nofun
  obtain ⟨first, fs, hfs, hfirst⟩ := hexpect.forInitial hinitial
  obtain ⟨condition, increment, st, cs, v, is, w, us, hahead, hcondition, hv, hincrement, hw, hst,
      hopen⟩ :=
    ((steps_forInitial _ levels).proper hexpect).loopRest hsteps hbody hloop
      ((steps_endScope _).running hrunning)
  refine ⟨.forLoop first condition increment st, u :: (fs ++ (cs ++ v :: (is ++ w :: us))), ?_,
    .forLoop ht hopening hfirst hcondition hv hincrement hw hst, hopen⟩
  rw [← ahead_beginScope d, hu, hfs, hahead]
  simp

/-! ### Declarations -/

theorem Proper.declaration (h : d.Proper) (hclean : (d.declaration levels body).Clean)
    (hrunning : (d.declaration levels body).stalled = false) :
    ∃ decl ts, d.ahead = ts ++ (d.declaration levels body).ahead ∧ Decl.Derives decl ts := by
  have hfirst : Steps true d (if d.check .kwVar then d.advance.varDeclaration levels else body d) := by
    split
    · exact (steps_advance d).trans (steps_varDeclaration _ levels)
    · exact hsteps d
  rw [Draft.declaration] at hclean hrunning ⊢
  by_cases hpanic : (if d.check .kwVar then d.advance.varDeclaration levels else body d).panicking
  · rw [if_pos hpanic] at hclean
    exact absurd ((steps_synchronize _).clean hclean) ((hfirst.proper h).honest hpanic)
  rw [if_neg hpanic] at hclean hrunning ⊢
  by_cases hvar : d.check .kwVar = true
  · rw [if_pos hvar] at hclean ⊢
    have hkind := kind_of_check hvar
    obtain ⟨name, value, ts, hts, hderives⟩ := ((Step.advance d).proper h).varDeclaration hclean
    refine ⟨.var name value, d.current :: ts, ?_, .var hkind hderives⟩
    rw [(h.exists_cons (hkind ▸ (by rintro ⟨⟩))).1, hts]
    rfl
  · rw [if_neg hvar] at hclean hrunning ⊢
    obtain ⟨st, ts, hts, hst, -⟩ := hbody h hclean hrunning
    exact ⟨.statement st, ts, hts, .statement hst⟩

/-- **Sequences of declarations**, up to the closing token or the end of the source. -/
theorem Proper.declarations (h : d.Proper) {closing : TokenKind} {bound : List Token}
    (hclean : (Draft.declarations (Draft.declaration levels body) closing bound d).Clean)
    (hrunning : (Draft.declarations (Draft.declaration levels body) closing bound d).stalled = false) :
    ∃ decls ts,
      d.ahead = ts ++ (Draft.declarations (Draft.declaration levels body) closing bound d).ahead ∧
      Decl.DerivesAll decls ts := by
  have hcompile : ∀ d, Steps true d (Draft.declaration levels body d) := fun d =>
    steps_declaration d levels hsteps
  induction bound generalizing d with
  | nil =>
    rw [Draft.declarations] at hclean hrunning ⊢
    by_cases hstop : (d.stalled || d.check closing || d.check .endOfSource) = true
    · rw [if_pos hstop]
      exact ⟨[], [], rfl, .nil⟩
    · rw [if_neg hstop] at hrunning
      exact absurd hrunning (by rintro ⟨⟩)
  | cons t bound ih =>
    rw [Draft.declarations] at hclean hrunning ⊢
    by_cases hstop : (d.stalled || d.check closing || d.check .endOfSource) = true
    · rw [if_pos hstop]
      exact ⟨[], [], rfl, .nil⟩
    · rw [if_neg hstop] at hclean hrunning ⊢
      have htail := steps_declarations (d.declaration levels body) hcompile closing bound
      obtain ⟨decl, ts, hts, hdecl⟩ :=
        h.declaration hsteps hbody (htail.clean hclean) (htail.running hrunning)
      obtain ⟨decls, us, hus, hdecls⟩ := ih ((hcompile d).proper h) hclean hrunning
      exact ⟨decl :: decls, ts ++ us, by rw [hts, hus, List.append_assoc], .cons hdecl hdecls⟩

/-- A block after its brace. -/
theorem Proper.block (h : d.Proper) (hclean : (d.block levels body).Clean)
    (hrunning : (d.block levels body).stalled = false) :
    ∃ decls ts u, d.ahead = ts ++ u :: (d.block levels body).ahead ∧ Decl.DerivesAll decls ts ∧
      u.kind = .rightBrace := by
  rw [Draft.block] at hclean hrunning ⊢
  obtain ⟨decls, ts, hts, hdecls⟩ := h.declarations hsteps hbody
    ((steps_expect _ _ _).clean hclean) ((steps_expect _ _ _).running hrunning)
  obtain ⟨u, hu, hkind⟩ := ((steps_declarations d (fun d => steps_declaration d levels hsteps)
    .rightBrace d.ahead).proper h).exists_of_expect hclean nofun
  exact ⟨decls, ts, u, by rw [← hu]; exact hts, hdecls, hkind⟩

end Bodies

/-! ### Statements of every kind -/

/-- A statement with a body is not skipped, if nothing is reported. -/
theorem Proper.nested (h : d.Proper) {body : Draft → Draft}
    {compile : Nat → (Draft → Draft) → Draft → Draft}
    (hclean : (if levels ≤ 1 then d.skipStatement else compile (levels - 1) body d).Clean) :
    (if levels ≤ 1 then d.skipStatement else compile (levels - 1) body d) =
      compile (levels - 1) body d ∧ 0 < levels := by
  have hlevels : ¬levels ≤ 1 := fun hle => by
    rw [if_pos hle] at hclean
    exact h.not_clean_skip (fun d => steps_passStatement d _ _ _) hclean
  exact ⟨if_neg hlevels, by omega⟩

theorem parses_statementWith {body : Draft → Draft} (hsteps : ∀ d, Steps true d (body d))
    (hbody : 0 < levels → ParsesStatements body) : ParsesStatements (statementWith levels body) := by
  intro d h hclean hrunning
  have hadvance := (Step.advance d).proper h
  -- A statement with a body, from what it is after its keyword.
  have hnested : ∀ {d' : Draft}, (∃ st ts, d.advance.ahead = ts ++ d'.ahead ∧
      Stmt.Derives st (d.current :: ts) ∧ (st.endsOpen = true → headKind d'.ahead ≠ .kwElse)) →
      d.current.kind ≠ .endOfSource → ∃ st ts, d.ahead = ts ++ d'.ahead ∧ Stmt.Derives st ts ∧
        (st.endsOpen = true → headKind d'.ahead ≠ .kwElse) := by
    rintro d' ⟨st, ts, hts, hst, hopen⟩ hne
    exact ⟨st, d.current :: ts, by rw [(h.exists_cons hne).1, hts]; rfl, hst, hopen⟩
  generalize hwhole : statementWith levels body d = d' at hclean hrunning ⊢
  rw [statementWith] at hwhole
  split at hwhole
  · next hkind =>
    subst hwhole
    obtain ⟨e, ts, u, hts, he, hu⟩ := hadvance.expressionUpTo ((steps_emitOp _ .print).clean hclean)
      (by rintro ⟨⟩)
    refine ⟨.print e, d.current :: (ts ++ [u]), ?_, .print hkind he hu, (by rintro ⟨⟩)⟩
    rw [(h.exists_cons (hkind ▸ (by rintro ⟨⟩))).1, hts]
    simp [printStatement]
  · next hkind =>
    obtain ⟨heq, hpos⟩ := hadvance.nested (hwhole ▸ hclean)
    obtain rfl := heq.symm.trans hwhole
    exact hnested (hadvance.ifStatement hsteps (hbody hpos) hclean hrunning hkind) (hkind ▸ (by rintro ⟨⟩))
  · next hkind =>
    obtain ⟨heq, hpos⟩ := hadvance.nested (hwhole ▸ hclean)
    obtain rfl := heq.symm.trans hwhole
    exact hnested (hadvance.whileStatement hsteps (hbody hpos) hclean hrunning hkind)
      (hkind ▸ (by rintro ⟨⟩))
  · next hkind =>
    obtain ⟨heq, hpos⟩ := hadvance.nested (hwhole ▸ hclean)
    obtain rfl := heq.symm.trans hwhole
    exact hnested (hadvance.forStatement hsteps (hbody hpos) hclean hrunning hkind) (hkind ▸ (by rintro ⟨⟩))
  · next hkind =>
    have hscope := (steps_beginScope _).proper hadvance
    subst hwhole
    simp only at hclean hrunning ⊢
    have hlevels : levels ≠ 0 := fun hzero => by
      rw [if_pos hzero] at hclean
      exact hscope.not_clean_skip (fun d => steps_passBlock d _ _) ((steps_endScope _).clean hclean)
    rw [if_neg hlevels] at hclean hrunning ⊢
    obtain ⟨decls, ts, u, hts, hdecls, hu⟩ := hscope.block hsteps (hbody (by omega))
      ((steps_endScope _).clean hclean) ((steps_endScope _).running hrunning)
    refine ⟨.block decls, d.current :: (ts ++ [u]), ?_, .block hkind hdecls hu, (by rintro ⟨⟩)⟩
    rw [(h.exists_cons (hkind ▸ (by rintro ⟨⟩))).1, ← ahead_beginScope, hts, ahead_endScope]
    simp
  · subst hwhole
    obtain ⟨e, ts, u, hts, he, hu⟩ := h.expressionUpTo ((steps_emitOp _ .pop).clean hclean) (by rintro ⟨⟩)
    refine ⟨.expression e, ts ++ [u], ?_, .expression he hu, (by rintro ⟨⟩)⟩
    rw [hts]
    simp [expressionStatement]

/-- **Statements.** If nothing is reported and no declaration is stuck, the tokens passed spell a
statement. -/
theorem parses_statement (levels : Nat) : ParsesStatements (statement levels) := by
  induction levels with
  | zero => exact parses_statementWith (fun _ => .refl) fun h => absurd h (Nat.lt_irrefl 0)
  | succ levels ih => exact parses_statementWith (fun d => steps_statement d levels) fun _ => ih

end Draft

end Lox
