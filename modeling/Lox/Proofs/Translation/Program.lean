import Lox.Proofs.Translation.Statement

/-!
# Compiling the tokens of a program

Statements of every kind, blocks and sequences of declarations, and with them whole programs: given
the tokens that spell a program, the compiler writes its code, or reports something if the program
does not fit.

## Main results

* `Draft.compiles_statement`: `statement` compiles all statements that fit.
* `Draft.Matches.declarations`: a sequence of declarations.
-/

namespace Lox

/-! ### When a statement with parts fits -/

section Fits

variable {levels limit : Nat} {scopes : Scopes} {pool : Pool}

theorem expr_fits_iff {e : Expr} :
    e.Fits levels scopes none pool ↔ e.height ≤ levels ∧
      (pool.addAll (e.constants scopes)).length ≤ Draft.maxConstants ∧
      JumpsFit (e.code scopes pool) := by
  rw [Expr.Fits, fits_iff]
  exact and_congr_right fun _ => and_iff_right nofun

theorem jumpsFit_dropLocals (scopes : Scopes) : JumpsFit (dropLocals scopes) := by
  intro i hi _
  rw [List.eq_of_mem_replicate hi]
  exact Nat.zero_le _

theorem Stmt.fits_expression (e : Expr) :
    (Stmt.expression e).Fits levels limit scopes pool ↔ e.Fits levels scopes none pool := by
  simp [Stmt.Fits, expr_fits_iff, fits_iff, Stmt.height, Stmt.WellScoped, Stmt.constants, Stmt.code]

theorem Stmt.fits_print (e : Expr) :
    (Stmt.print e).Fits levels limit scopes pool ↔ e.Fits levels scopes none pool := by
  simp [Stmt.Fits, expr_fits_iff, fits_iff, Stmt.height, Stmt.WellScoped, Stmt.constants, Stmt.code]

theorem Stmt.fits_block (decls : List Decl) :
    (Stmt.block decls).Fits (levels + 1) limit scopes pool ↔
      Decl.FitsAll levels limit ([] :: scopes) pool decls := by
  simp [Stmt.Fits, Decl.FitsAll, fits_iff, Stmt.height, Stmt.WellScoped, Stmt.constants, Stmt.code,
    jumpsFit_dropLocals]

/-- An if statement with an `else` fits if its parts do one level further in, and its jumps are not
too far. -/
theorem Stmt.fits_ifElse (e : Expr) (st st' : Stmt) :
    let pool₁ := pool.addAll (e.constants scopes)
    let pool₂ := pool₁.addAll (st.constants scopes)
    (Stmt.ifElse e st st').Fits (levels + 1) limit scopes pool ↔
      e.Fits levels scopes none pool ∧ st.Fits levels limit scopes pool₁ ∧
        1 + codeSize (st.code scopes pool₁) + 3 ≤ Draft.maxDistance ∧
        st'.Fits levels limit scopes pool₂ ∧
        1 + codeSize (st'.code scopes pool₂) ≤ Draft.maxDistance := by
  simp only [Stmt.Fits, expr_fits_iff, fits_iff, List.append_assoc, Stmt.height, Stmt.WellScoped,
    Stmt.constants, Stmt.code, Pool.length_addAll_append_le_iff, jumpsFit_append, choice,
    jumpsFit_cons, List.cons_append, Instruction.isJump, OpCode.operand, OperandKind.size,
    max_le_iff, Nat.add_le_add_iff_right, Draft.maxDistance]
  simp
  tauto

/-- The same without an `else`. -/
theorem Stmt.fits_ifThen (e : Expr) (st : Stmt) :
    let pool₁ := pool.addAll (e.constants scopes)
    (Stmt.ifThen e st).Fits (levels + 1) limit scopes pool ↔
      e.Fits levels scopes none pool ∧ st.Fits levels limit scopes pool₁ ∧
        1 + codeSize (st.code scopes pool₁) + 3 ≤ Draft.maxDistance ∧ True ∧
        1 + codeSize [] ≤ Draft.maxDistance := by
  simp only [Stmt.Fits, expr_fits_iff, fits_iff, Stmt.height, Stmt.WellScoped,
    Stmt.constants, Stmt.code, Pool.length_addAll_append_le_iff, jumpsFit_append, choice,
    jumpsFit_cons, List.cons_append, Instruction.isJump, OpCode.operand, OperandKind.size,
    max_le_iff, Nat.add_le_add_iff_right, Draft.maxDistance]
  simp
  tauto

/-- A while statement fits if its parts do one level further in, and its jumps are not too far. -/
theorem Stmt.fits_whileLoop (e : Expr) (st : Stmt) :
    let code := e.code scopes pool
    let pool₁ := pool.addAll (e.constants scopes)
    (Stmt.whileLoop e st).Fits (levels + 1) limit scopes pool ↔
      e.Fits levels scopes none pool ∧ st.Fits levels limit scopes pool₁ ∧
        loopHeadSize (some code) + codeSize (st.code scopes pool₁) + 3 ≤ Draft.maxDistance ∧
        1 + codeSize (st.code scopes pool₁) + 3 ≤ Draft.maxDistance := by
  simp only [Stmt.Fits, expr_fits_iff, fits_iff, List.append_assoc, Stmt.height, Stmt.WellScoped,
    Stmt.constants, Stmt.code, Pool.length_addAll_append_le_iff, jumpsFit_append, repeating,
    loopHead, loopStep, loopExit, loopBack, jumpsFit_cons, List.cons_append, Instruction.isJump,
    OpCode.operand, OperandKind.size, max_le_iff, Nat.add_le_add_iff_right, Draft.maxDistance]
  simp
  tauto

/-- A for statement fits if its clauses and its body do one level further in, inside the scope of
the first clause, and its jumps are not too far. -/
theorem Stmt.fits_forLoop (first : ForInit) (condition increment : Option Expr) (st : Stmt) :
    let inner := first.scopesAfter ([] :: scopes)
    let pool₁ := pool.addAll (first.constants ([] :: scopes))
    let pool₂ := pool₁.addAll (Expr.constantsOption inner condition)
    let pool₃ := pool₂.addAll (Expr.constantsOption inner increment)
    let head := Draft.clauseCode inner pool₁ condition
    let step := Draft.clauseCode inner pool₂ increment
    let code := st.code inner pool₃
    (Stmt.forLoop first condition increment st).Fits (levels + 1) limit scopes pool ↔
      first.Fits levels limit ([] :: scopes) pool ∧
        Expr.FitsOption levels inner none pool₁ condition ∧
        (Expr.FitsOption levels inner none pool₂ increment ∧
          JumpsFit (loopStep (loopHeadSize head) step)) ∧
        st.Fits levels limit inner pool₃ ∧
        loopBack (loopHeadSize head) step + codeSize code + 3 ≤ Draft.maxDistance ∧
        (head.isSome → 1 + codeSize (loopStep (loopHeadSize head) step) + codeSize code + 3 ≤
          Draft.maxDistance) := by
  cases condition <;> cases increment <;>
    simp only [Stmt.Fits, ForInit.Fits, Expr.FitsOption, expr_fits_iff, fits_iff,
      List.append_assoc, Stmt.height, Expr.heightOption, Stmt.WellScoped, Stmt.constants,
      Expr.constantsOption, Stmt.code, Pool.length_addAll_append_le_iff, jumpsFit_append,
      repeating, loopHead, loopStep, loopExit, loopBack, jumpsFit_cons, List.cons_append,
      Instruction.isJump, OpCode.operand, OperandKind.size, max_le_iff, Nat.add_le_add_iff_right,
      Draft.maxDistance, Draft.clauseCode, jumpsFit_dropLocals] <;>
    simp <;> tauto

theorem Decl.fitsAll_cons (decl : Decl) (decls : List Decl) :
    Decl.FitsAll levels limit scopes pool (decl :: decls) ↔
      decl.Fits levels limit scopes pool ∧
        Decl.FitsAll levels limit (decl.scopesAfter scopes) (pool.addAll (decl.constants scopes))
          decls := by
  simp only [Decl.Fits, Decl.FitsAll, fits_iff, Decl.heightAll, Decl.WellScopedAll,
    Decl.constantsAll, Decl.codeAll, Pool.length_addAll_append_le_iff, jumpsFit_append, max_le_iff]
  tauto

theorem Stmt.height_pos (st : Stmt) : 0 < st.height := by
  cases st with
  | expression e | print e => exact e.height_pos
  | block | ifThen | ifElse | whileLoop | forLoop => exact Nat.succ_pos _

end Fits

namespace Draft

/-! ### Declarations -/

section Declarations

variable {levels : Nat} {body : Draft → Draft} (hsteps : ∀ d, Steps true d (body d))
  (hbody : CompilesStatements levels body)

/-- Where nothing has been reported there is nothing to recover from. -/
theorem Matches.not_panicking {d : Draft} {s : Sketch} (h : d.Matches s) :
    ¬d.panicking = true := by
  rw [h.proper.panicking h.clean]
  exact Bool.false_ne_true

theorem declarations_of_check {compile : Draft → Draft} {closing : TokenKind} {bound : List Token}
    {d : Draft} (h : d.check closing = true) :
    Draft.declarations compile closing bound d = d := by
  cases bound <;> simp [Draft.declarations, h]

include hsteps hbody

omit hsteps in
/-- **A declaration.** -/
theorem Matches.declaration {d : Draft} {s : Sketch} (h : d.Matches s) (hpending : s.pending = none)
    {decl : Decl} {ts rest : List Token} (hderives : decl.Derives ts) (hrest : s.rest = ts ++ rest)
    (hopen : headKind rest ≠ .kwElse) :
    (d.declaration levels body).Meets (decl.Fits levels s.limit s.scopes s.pool)
      (·.Matches (decl.after s rest)) := by
  have hfirst : (if d.check .kwVar then d.advance.varDeclaration levels else body d).Meets
      (decl.Fits levels s.limit s.scopes s.pool) (·.Matches (decl.after s rest)) := by
    rw [h.check]
    cases hderives with
    | var keyword hvar =>
      rw [hrest, List.cons_append, headKind_cons, keyword, if_pos (by decide)]
      exact (h.advance hrest).varDeclaration hpending hvar rfl
    | statement hst =>
      obtain ⟨t, us, rfl, ht⟩ := hst.exists_cons
      have hvar : t.kind ≠ .kwVar := by
        intro heq
        rw [heq] at ht
        exact absurd ht (by decide)
      rw [hrest, List.cons_append, headKind_cons, if_neg (by simpa using hvar)]
      exact hbody hst h hpending hrest fun _ => hopen
  rw [Draft.declaration]
  generalize (if d.check .kwVar then d.advance.varDeclaration levels else body d) = d' at hfirst ⊢
  rcases hfirst with ⟨hfits, hafter⟩ | ⟨hnot, hclean⟩
  · rw [if_neg hafter.not_panicking]
    exact .of_wanted hafter hfits
  · exact .of_not_clean (mt (steps_recovery d').clean hclean) hnot

/-- **A sequence of declarations** up to a closing brace or the end of the source. -/
theorem Matches.declarations {closing : TokenKind}
    (hclosing : closing = .rightBrace ∨ closing = .endOfSource) {decls : List Decl}
    {d : Draft} {s : Sketch} {ts rest bound : List Token} (h : d.Matches s)
    (hpending : s.pending = none) (hderives : Decl.DerivesAll decls ts)
    (hrest : s.rest = ts ++ rest) (hend : headKind rest = closing)
    (hbound : ts.length ≤ bound.length) :
    (Draft.declarations (Draft.declaration levels body) closing bound d).Meets
      (Decl.FitsAll levels s.limit s.scopes s.pool decls)
      (·.Matches (Decl.afterAll s decls rest)) := by
  induction decls generalizing d s ts bound with
  | nil =>
    cases hderives
    have hcheck : d.check closing = true := by
      rw [h.check, hrest]
      exact decide_eq_true hend
    rw [declarations_of_check hcheck]
    refine .of_wanted ?_ ⟨Nat.zero_le _, trivial, h.pool.bound, jumpsFit_nil⟩
    obtain rfl : rest = s.rest := hrest.symm
    simpa [Decl.afterAll, Sketch.extend, Decl.constantsAll, Decl.codeAll, Decl.scopesAfterAll]
      using h
  | cons decl decls ih =>
    obtain _ | @⟨_, _, us, vs, hhead, htail⟩ := hderives
    obtain ⟨t, us, rfl, ht⟩ := hhead.exists_cons
    have hother : ∀ kind, kind = .rightBrace ∨ kind = .endOfSource → t.kind ≠ kind := by
      rintro kind (rfl | rfl) heq <;> rw [heq] at ht <;> exact absurd ht (by decide)
    have hcheck : ∀ kind, kind = .rightBrace ∨ kind = .endOfSource → d.check kind = false := by
      intro kind hkind
      rw [h.check, hrest]
      exact decide_eq_false (hother kind hkind)
    have helse : headKind (vs ++ rest) ≠ .kwElse := by
      cases htail with
      | nil =>
        rw [List.nil_append, hend]
        rcases hclosing with rfl | rfl <;> rintro ⟨⟩
      | cons hnext _ =>
        obtain ⟨u, ws, rfl, hu⟩ := hnext.exists_cons
        intro heq
        have hkind : u.kind = .kwElse := heq
        rw [hkind] at hu
        exact absurd hu (by decide)
    cases bound with
    | nil => simp at hbound
    | cons b bound =>
      rw [Draft.declarations, h.running, hcheck closing hclosing, hcheck .endOfSource (.inr rfl)]
      refine Meets.of_iff (Decl.fitsAll_cons decl decls).symm ?_
      refine (h.declaration hbody hpending hhead
        (by rw [hrest, List.append_assoc]) helse).bind
        (fun d => steps_declarations d (fun d => steps_declaration d levels hsteps) _ _)
        fun _ hd => ?_
      refine (ih hd hpending htail rfl ?_).congr Iff.rfl fun _ hmatches => ?_
      · simp only [List.length_append, List.length_cons] at hbound
        omega
      · simpa [Decl.afterAll, Decl.after, Sketch.extend, Decl.constantsAll, Decl.codeAll,
          Decl.scopesAfterAll, Pool.addAll_append] using hmatches

/-- A block whose brace has been passed. -/
theorem Matches.block {d : Draft} {s : Sketch} (h : d.Matches s) (hpending : s.pending = none)
    {decls : List Decl} {ts rest : List Token} {u : Token} (hderives : Decl.DerivesAll decls ts)
    (hrest : s.rest = ts ++ u :: rest) (hu : u.kind = .rightBrace) :
    (d.block levels body).Meets (Decl.FitsAll levels s.limit s.scopes s.pool decls)
      (·.Matches (Decl.afterAll s decls rest)) := by
  have hbound : ts.length ≤ d.ahead.length := by
    rw [h.ahead, hrest, List.length_append]
    exact Nat.le_add_right _ _
  exact (h.declarations hsteps hbody (.inl rfl) hpending hderives hrest hu hbound).map
    (fun d => steps_expect d _ _) fun _ hafter => hafter.expect rfl hu .closeBlock

end Declarations

/-! ### Statements -/

section Statements

variable {levels : Nat} {body : Draft → Draft}

theorem two_le_succ_max (e : Expr) (n : Nat) : 2 ≤ max e.height n + 1 :=
  Nat.succ_le_succ ((Nat.succ_le_of_lt e.height_pos).trans (le_max_left _ _))

/-- A for statement whose keyword has been passed. -/
theorem Matches.forStatement (hsteps : ∀ d, Steps true d (body d))
    (hbody : CompilesStatements levels body) {d : Draft} {s : Sketch} (h : d.Matches s)
    (hpending : s.pending = none) {first : ForInit} {condition increment : Option Expr} {st : Stmt}
    {u v w : Token} {fs cs is us rest : List Token}
    (hrest : s.rest = u :: (fs ++ (cs ++ v :: (is ++ w :: (us ++ rest)))))
    (hu : u.kind = .leftParen) (hfirst : first.Derives fs)
    (hcondition : Expr.DerivesOption condition cs) (hv : v.kind = .semicolon)
    (hincrement : Expr.DerivesOption increment is) (hw : w.kind = .rightParen)
    (hst : st.Derives us) (hopen : st.endsOpen = true → headKind rest ≠ .kwElse) :
    (d.forStatement levels body).Meets
      ((Stmt.forLoop first condition increment st).Fits (levels + 1) s.limit s.scopes s.pool)
      (·.Matches ((Stmt.forLoop first condition increment st).after s rest)) := by
  refine Meets.of_iff (Stmt.fits_forLoop first condition increment st).symm ?_
  refine (((h.beginScope hpending).expect hrest hu .openFor).forInitial hpending hfirst rfl).bind
    (fun d => (steps_loopRest hsteps d).trans (steps_endScope _)) fun _ hd => ?_
  have hloop := hd.loopRest hsteps hbody hpending rfl hcondition hv hincrement hw hst hopen
  obtain ⟨scope, hscope⟩ := first.exists_scopesAfter [] s.scopes
  refine Meets.of_iff ?_ (hloop.map steps_endScope fun _ hd => ?_)
  · show Expr.FitsOption _ _ s.pending _ _ ∧ _ ↔ _
    rw [hpending]
    exact Iff.rfl
  · have hmatches := hd.endScope hpending hscope
    simpa [Stmt.after, ForInit.after, Sketch.extend, Stmt.constants, Stmt.code, Pool.addAll_append,
      clauseCode] using hmatches

/-- A statement with a body, which is skipped where it cannot fit. -/
theorem Matches.nested {d : Draft} {s : Sketch} (h : d.Matches s) (st : Stmt)
    (hheight : 2 ≤ st.height) {compile : Nat → (Draft → Draft) → Draft → Draft}
    {wanted : Draft → Prop}
    (hcompile : ∀ inner, levels = inner + 1 →
      (compile inner body d).Meets (st.Fits (inner + 1) s.limit s.scopes s.pool) wanted) :
    (if levels ≤ 1 then d.skipStatement else compile (levels - 1) body d).Meets
      (st.Fits levels s.limit s.scopes s.pool) wanted := by
  by_cases hlevels : levels ≤ 1
  · rw [if_pos hlevels]
    refine .of_not_clean (h.proper.not_clean_skip fun d => steps_passStatement d _ _ _) fun hfits => ?_
    exact absurd (hheight.trans hfits.nesting) (by omega)
  · rw [if_neg hlevels]
    have heq : levels = levels - 1 + 1 := by omega
    have hinner := hcompile (levels - 1) heq
    rwa [← heq] at hinner

theorem statementWith_of_opening? {d : Draft} (h : d.current.kind.opening?.isSome) :
    statementWith levels body d = d.expressionStatement levels := by
  rw [statementWith]
  split <;> simp_all [TokenKind.opening?]

/-- An expression up to its semicolon, and an instruction for its value. -/
theorem Matches.valueStatement {d : Draft} {s : Sketch} (h : d.Matches s) (hpending : s.pending = none)
    {e : Expr} {ts rest : List Token} {u : Token} (hderives : e.Derives .assignment ts)
    (hrest : s.rest = ts ++ u :: rest) (hu : u.kind = .semicolon) (what : Expectation) {op : OpCode}
    (hop : op.operand = .none) :
    (((d.expression levels).expect .semicolon what).emitOp op).Meets
      (e.Fits levels s.scopes none s.pool)
      (·.Matches (s.extend (e.constants s.scopes) (e.code s.scopes s.pool ++ [⟨op, 0⟩]) rest)) := by
  have hbytes : Instruction.bytes ⟨op, 0⟩ = [op.toByte] := by rw [Instruction.bytes, hop]
  rw [← hpending]
  refine (h.expressionUpTo hderives hrest hu rfl (by rintro ⟨⟩) what).map (fun d => steps_emitOp d op)
    fun _ hd => ?_
  simpa [Expr.after, Sketch.extend, hbytes] using hd.emitOp op

/-- **Statements** of every kind. -/
theorem compiles_statementWith (hsteps : ∀ d, Steps true d (body d))
    (hbody : 0 < levels → CompilesStatements (levels - 1) body) :
    CompilesStatements levels (statementWith levels body) := by
  intro st ts rest d s hderives h hpending hrest hopen
  cases hderives with
  | @expression e u ts value closing =>
    obtain ⟨t, us, rfl, ht⟩ := value.exists_cons
    rw [statementWith_of_opening? (by rw [h.current_kind, hrest]; exact ht)]
    exact Meets.of_iff (Stmt.fits_expression e).symm
      (h.valueStatement hpending value (by rw [hrest, List.append_assoc]; rfl) closing
        .endOfExpression rfl)
  | @print e t u ts keyword value closing =>
    have hkind : d.current.kind = .kwPrint := by rw [h.current hrest, keyword]
    rw [statementWith, hkind]
    exact Meets.of_iff (Stmt.fits_print e).symm
      ((h.advance hrest).valueStatement hpending value (by simp) closing .endOfPrint rfl)
  | @block decls t u ts opening hdecls closing =>
    have hkind : d.current.kind = .leftBrace := by rw [h.current hrest, opening]
    have hd := (h.advance hrest).beginScope hpending
    rw [statementWith, hkind]
    cases levels with
    | zero =>
      refine .of_not_clean ?_ fun hfits => absurd hfits.nesting (Nat.not_succ_le_zero _)
      exact mt (steps_endScope _).clean (hd.proper.not_clean_skip fun d => steps_passBlock d _ _)
    | succ inner =>
      refine Meets.of_iff (Stmt.fits_block decls).symm ?_
      refine (hd.block hsteps (hbody (Nat.succ_pos _)) hpending hdecls
        (show _ = ts ++ u :: rest by simp) closing).map steps_endScope fun _ hafter => ?_
      obtain ⟨scope, hscope⟩ := Decl.exists_scopesAfterAll decls [] s.scopes
      simpa [Stmt.after, Decl.afterAll, Sketch.extend, Stmt.constants, Stmt.code] using
        hafter.endScope hpending hscope
  | @ifThen e st t u v ts us keyword opening condition closing hst =>
    have hkind : d.current.kind = .kwIf := by rw [h.current hrest, keyword]
    have hd := h.advance hrest
    rw [statementWith, hkind]
    refine hd.nested (.ifThen e st) (two_le_succ_max e _) ?_
    rintro inner rfl
    have helse := hopen rfl
    refine (hd.ifStatement hsteps (hbody (Nat.succ_pos _)) hpending
      (show _ = u :: (ts ++ v :: (us ++ rest)) by simp) opening condition closing hst
      (fun _ => helse) rest [] (fun _ => []) (fun _ => True) ?_).congr ?_ fun _ hmatches => ?_
    · intro d' s' hd' _ _ _ hrest'
      have hcheck : ¬(d'.check .kwElse) = true := by
        rw [hd'.check, hrest']
        simpa using helse
      rw [elseBranch, if_neg hcheck]
      refine .of_wanted ?_ trivial
      obtain rfl : rest = s'.rest := hrest'.symm
      simpa [Sketch.extend] using hd'
    · refine Iff.trans ?_ (Stmt.fits_ifThen e st).symm
      rw [← hpending]
      exact Iff.rfl
    · simpa [Stmt.after, Stmt.constants, Stmt.code, Sketch.extend] using hmatches
  | @ifElse e st st' t u v w ts us vs keyword opening condition closing hst nearest otherwise other =>
    have hkind : d.current.kind = .kwIf := by rw [h.current hrest, keyword]
    have hd := h.advance hrest
    rw [statementWith, hkind]
    refine hd.nested (.ifElse e st st') (two_le_succ_max e _) ?_
    rintro inner rfl
    have hinner : CompilesStatements inner body := hbody (Nat.succ_pos _)
    refine (hd.ifStatement hsteps hinner hpending
      (show _ = u :: (ts ++ v :: (us ++ w :: (vs ++ rest))) by simp) opening condition closing hst
      (fun hopen => absurd (nearest.symm.trans hopen) Bool.false_ne_true)
      rest (st'.constants s.scopes) (st'.code s.scopes) (st'.Fits inner s.limit s.scopes) ?_).congr ?_
      fun _ hmatches => ?_
    · intro d' s' hd' hlimit hscopes hpending' hrest'
      have hcheck : d'.check .kwElse = true := by
        rw [hd'.check, hrest']
        exact decide_eq_true otherwise
      rw [elseBranch, if_pos hcheck, ← hlimit, ← hscopes]
      have hbranch := hinner other (hd'.advance hrest') hpending' rfl hopen
      exact hbranch
    · refine Iff.trans ?_ (Stmt.fits_ifElse e st st').symm
      rw [← hpending]
    · exact hmatches
  | @whileLoop e st t u v ts us keyword opening condition closing hst =>
    have hkind : d.current.kind = .kwWhile := by rw [h.current hrest, keyword]
    have hd := h.advance hrest
    rw [statementWith, hkind]
    refine hd.nested (.whileLoop e st) (two_le_succ_max e _) ?_
    rintro inner rfl
    refine (hd.whileStatement hsteps (hbody (Nat.succ_pos _)) hpending
      (show _ = u :: (ts ++ v :: (us ++ rest)) by simp) opening condition closing hst hopen).congr
      ?_ fun _ hmatches => hmatches
    refine Iff.trans ?_ (Stmt.fits_whileLoop e st).symm
    rw [← hpending]
    exact Iff.rfl
  | @forLoop first condition increment st t u v w fs cs is us keyword opening initial test semicolon
      step closing hst =>
    have hkind : d.current.kind = .kwFor := by rw [h.current hrest, keyword]
    have hd := h.advance hrest
    rw [statementWith, hkind]
    refine hd.nested (.forLoop first condition increment st) ?_ ?_
    · exact Nat.succ_le_succ ((Nat.succ_le_of_lt st.height_pos).trans
        ((le_max_right _ _).trans (le_max_right _ _)))
    · rintro inner rfl
      exact hd.forStatement hsteps (hbody (Nat.succ_pos _)) hpending
        (show _ = u :: (fs ++ (cs ++ v :: (is ++ w :: (us ++ rest)))) by simp) opening initial test
        semicolon step closing hst hopen

/-- **Statements.** The compiler writes the code of a statement that fits into the levels left, and
reports something if it does not fit. -/
theorem compiles_statement (levels : Nat) : CompilesStatements levels (statement levels) := by
  induction levels with
  | zero => exact compiles_statementWith (fun _ => .refl) fun h => absurd h (Nat.lt_irrefl 0)
  | succ levels ih => exact compiles_statementWith (fun d => steps_statement d levels) fun _ => ih

end Statements

end Draft

end Lox
