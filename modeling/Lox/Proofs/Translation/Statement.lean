import Lox.Proofs.Translation.Expression

/-!
# Compiling the tokens of a statement

Given the tokens that spell a statement or a declaration, the compiler writes its code, or reports
something if it does not fit.

## Main definitions

* `Stmt.Fits`, `Decl.Fits`, `Decl.FitsAll`: statements and declarations can be compiled at a place.
* `Draft.CompilesStatements`: a function compiles all statements that fit into a number of levels.

## Main results

* `Draft.compiles_statement`: `statement` does.
* `Draft.Matches.declarations`: a sequence of declarations.
-/

namespace Lox

/-! ### When a statement fits -/

/-- The expression, if there is one, can be compiled. -/
def Expr.FitsOption (levels : Nat) (scopes : Scopes) (pending : Option String) (pool : Pool) :
    Option Expr → Prop
  | some e => e.Fits levels scopes pending pool
  | none => True

/-- The declaration of a variable can be compiled. -/
def Decl.FitsVar (levels limit : Nat) (scopes : Scopes) (pool : Pool) (name : String)
    (value : Option Expr) : Prop :=
  Lox.Fits levels pool (Expr.heightOption value) (scopes.CanDeclare limit name value)
    (Decl.varConstants scopes name value) (Decl.varCode scopes pool name value)

/-- The first clause of a for statement can be compiled. -/
def ForInit.Fits (levels limit : Nat) (scopes : Scopes) (pool : Pool) (first : ForInit) : Prop :=
  Lox.Fits levels pool first.height (first.WellScoped limit scopes) (first.constants scopes)
    (first.code scopes pool)

/-- The statement can be compiled. -/
def Stmt.Fits (levels limit : Nat) (scopes : Scopes) (pool : Pool) (st : Stmt) : Prop :=
  Lox.Fits levels pool st.height (st.WellScoped limit scopes) (st.constants scopes)
    (st.code scopes pool)

/-- The declaration can be compiled. -/
def Decl.Fits (levels limit : Nat) (scopes : Scopes) (pool : Pool) (decl : Decl) : Prop :=
  Lox.Fits levels pool decl.height (decl.WellScoped limit scopes) (decl.constants scopes)
    (decl.code scopes pool)

/-- The declarations can be compiled. -/
def Decl.FitsAll (levels limit : Nat) (scopes : Scopes) (pool : Pool) (decls : List Decl) : Prop :=
  Lox.Fits levels pool (Decl.heightAll decls) (Decl.WellScopedAll limit scopes decls)
    (Decl.constantsAll scopes decls) (Decl.codeAll scopes decls pool)

/-! ### After a piece of source -/

/-- The sketch after the tokens of a statement. -/
def Stmt.after (s : Sketch) (st : Stmt) (rest : List Token) : Sketch :=
  s.extend (st.constants s.scopes) (st.code s.scopes s.pool) rest

/-- The sketch after the declaration of a variable. -/
def Decl.afterVar (s : Sketch) (name : String) (value : Option Expr) (rest : List Token) : Sketch :=
  { s.extend (Decl.varConstants s.scopes name value) (Decl.varCode s.scopes s.pool name value) rest
    with scopes := s.scopes.declare name }

/-- The sketch after the first clause of a for statement. -/
def ForInit.after (s : Sketch) (first : ForInit) (rest : List Token) : Sketch :=
  { s.extend (first.constants s.scopes) (first.code s.scopes s.pool) rest
    with scopes := first.scopesAfter s.scopes }

/-- The sketch after the tokens of a declaration. -/
def Decl.after (s : Sketch) (decl : Decl) (rest : List Token) : Sketch :=
  { s.extend (decl.constants s.scopes) (decl.code s.scopes s.pool) rest
    with scopes := decl.scopesAfter s.scopes }

/-- The sketch after the tokens of some declarations. -/
def Decl.afterAll (s : Sketch) (decls : List Decl) (rest : List Token) : Sketch :=
  { s.extend (Decl.constantsAll s.scopes decls) (Decl.codeAll s.scopes decls s.pool) rest
    with scopes := Decl.scopesAfterAll s.scopes decls }

namespace Draft

variable {levels : Nat} {d : Draft} {s : Sketch} {rest : List Token}

/-! ### Expressions in statements -/

theorem Matches.expression (h : d.Matches s) {e : Expr} {ts : List Token} {u : Token}
    (hderives : e.Derives .assignment ts) (hrest : s.rest = ts ++ u :: rest)
    (hu : u.kind.connective? = none) (hequal : u.kind ≠ .equal) :
    (d.expression levels).Meets (e.Fits levels s.scopes s.pending s.pool)
      (·.Matches (e.after s (u :: rest))) :=
  compiles_expressionAt levels hderives h hrest (stops_of_connective?_eq_none hu hequal)

/-- An expression up to the token that has to come after it. -/
theorem Matches.expressionUpTo (h : d.Matches s) {e : Expr} {ts : List Token} {u : Token}
    (hderives : e.Derives .assignment ts) (hrest : s.rest = ts ++ u :: rest) {kind : TokenKind}
    (hu : u.kind = kind) (hconnective : kind.connective? = none) (hequal : kind ≠ .equal)
    (what : Expectation) :
    ((d.expression levels).expect kind what).Meets (e.Fits levels s.scopes s.pending s.pool)
      (·.Matches (e.after s rest)) :=
  (h.expression hderives hrest (hu ▸ hconnective) (hu ▸ hequal)).map
    (fun d => steps_expect d _ _) fun _ hafter => hafter.expect rfl hu what

/-- An expression that may be missing fits if what it stands for does. -/
theorem fitsOption_iff {levels : Nat} {scopes : Scopes} {pending : Option String} {pool : Pool}
    (hpool : pool.length ≤ maxConstants) (value : Option Expr) :
    Expr.FitsOption levels scopes pending pool value ↔
      Fits levels pool (Expr.heightOption value)
        (∀ name, pending = some name → name ∉ Expr.namesOption value)
        (Expr.constantsOption scopes value) (Expr.initialCode scopes pool value) := by
  cases value with
  | some e => exact Iff.rfl
  | none =>
    have hjumps : JumpsFit (Expr.initialCode scopes pool none) := Expr.jumpsFit_ops [.nil]
    exact iff_of_true trivial ⟨Nat.zero_le _, fun _ _ => List.not_mem_nil, hpool, hjumps⟩

/-! ### Declarations of variables -/

/-- The tokens of the declaration of a variable start with its name. -/
theorem exists_cons_of_derivesVar {name : String} {value : Option Expr} {ts : List Token}
    (h : Decl.DerivesVar name value ts) :
    ∃ t us, ts = t :: us ∧ t.kind = .identifier ∧ t.lexeme = name := by
  cases h with
  | plain hname _ => exact ⟨_, _, rfl, hname, rfl⟩
  | initialized hname => exact ⟨_, _, rfl, hname, rfl⟩

/-- The initial value of a variable whose name has been passed, up to the semicolon. -/
theorem Matches.initialValue (h : d.Matches s) {name : String} {value : Option Expr} {t : Token}
    {us : List Token} (hderives : Decl.DerivesVar name value (t :: us))
    (hrest : s.rest = us ++ rest) :
    (d.initialValue levels).Meets (Expr.FitsOption levels s.scopes s.pending s.pool value)
      (·.Matches (s.extend (Expr.constantsOption s.scopes value)
        (Expr.initialCode s.scopes s.pool value) rest)) := by
  rw [Draft.initialValue, h.check]
  cases hderives with
  | plain hname closing =>
    rw [hrest, List.cons_append, headKind_cons, closing, if_neg (by decide)]
    exact .of_wanted ((h.emitOp .nil).expect hrest closing .endOfVariable) trivial
  | initialized hname sign hvalue closing =>
    rw [hrest, List.cons_append, headKind_cons, sign, if_pos (by decide)]
    exact (h.advance hrest).expressionUpTo hvalue (by simp) closing rfl (by rintro ⟨⟩) .endOfVariable

/-- The declaration of a global, whose name is put into the pool first. -/
theorem Matches.globalDeclaration (h : d.Matches s) (hpending : s.pending = none)
    (hscopes : s.scopes = []) {name : String} {value : Option Expr} {t : Token} {us : List Token}
    (hderives : Decl.DerivesVar name value (t :: us)) (hrest : s.rest = us ++ rest) :
    (((d.stringConstant name).2.initialValue levels).emitOpByte .defineGlobal
        (d.stringConstant name).1).Meets
      (Decl.FitsVar levels s.limit s.scopes s.pool name value)
      (·.Matches (Decl.afterVar s name value rest)) := by
  rcases h.stringConstant name with ⟨hroom, hmatches, -, hindex⟩ | ⟨hfull, hclean⟩
  · have hboth : Expr.FitsOption levels s.scopes s.pending (s.pool.add (.text name)) value ↔
        Decl.FitsVar levels s.limit s.scopes s.pool name value := by
      rw [fitsOption_iff hroom, Decl.FitsVar, Decl.varConstants, Decl.varCode, if_pos hscopes,
        if_pos hscopes, Scopes.CanDeclare, hpending]
      constructor
      · rintro ⟨hn, -, hc, hj⟩
        exact ⟨hn, fun hne => absurd hscopes hne, hc, by simp [hj, Instruction.isJump,
          OpCode.operand, OperandKind.size]⟩
      · rintro ⟨hn, -, hc, hj⟩
        exact ⟨hn, (by rintro name ⟨⟩), hc, ((jumpsFit_append _ _).mp hj).1⟩
    refine Meets.of_iff hboth ((hmatches.initialValue hderives hrest).map
      (fun d => steps_emitOpByte d _ _) fun _ hd => ?_)
    have hop := hd.emitOpByte .defineGlobal (d.stringConstant name).1
    rw [hindex] at hop ⊢
    simpa [Decl.afterVar, Sketch.extend, Decl.varConstants, Decl.varCode, hscopes, Scopes.declare,
      Pool.addAll_cons, Instruction.bytes, OpCode.operand] using hop
  · refine .of_not_clean ?_ fun hfits => hfull ?_
    · exact mt ((steps_initialValue _ levels).trans (steps_emitOpByte _ _ _)).clean hclean
    · have hconstants := hfits.constants
      rw [Decl.varConstants, if_pos hscopes, Pool.addAll_append] at hconstants
      exact (Pool.length_le_addAll _ _).trans hconstants

/-- The declaration of a local, whose name is pending while its initial value is compiled. -/
theorem Matches.localDeclaration (h : d.Matches s) (hpending : s.pending = none)
    {scope : List String} {outer : Scopes} (hscopes : s.scopes = scope :: outer) {name : String}
    {value : Option Expr} {t : Token} {us : List Token}
    (hderives : Decl.DerivesVar name value (t :: us)) (hrest : s.rest = us ++ rest) :
    (((d.declareLocal name).initialValue levels).completeLocal).Meets
      (Decl.FitsVar levels s.limit s.scopes s.pool name value)
      (·.Matches (Decl.afterVar s name value rest)) := by
  have hboth : (name ∉ scope ∧ s.scopes.names.length < s.limit) ∧
      Expr.FitsOption levels s.scopes (some name) s.pool value ↔
        Decl.FitsVar levels s.limit s.scopes s.pool name value := by
    rw [fitsOption_iff h.pool.bound, Decl.FitsVar, Decl.varConstants, Decl.varCode,
      if_neg (by simp [hscopes]), if_neg (by simp [hscopes]), Scopes.CanDeclare]
    constructor
    · rintro ⟨⟨hnew, hlimit⟩, hn, hnames, hc, hj⟩
      exact ⟨hn, fun _ => ⟨by rwa [hscopes], hnames name rfl, hlimit⟩, hc, hj⟩
    · rintro ⟨hn, hcan, hc, hj⟩
      obtain ⟨hnew, hnames, hlimit⟩ := hcan (by simp [hscopes])
      rw [hscopes] at hnew
      refine ⟨⟨hnew, hlimit⟩, hn, ?_, hc, hj⟩
      rintro _ ⟨⟩
      exact hnames
  refine Meets.of_iff hboth (((h.declareLocal hpending hscopes name).bind
    (fun d => steps_initialValue d levels) fun _ hd => hd.initialValue hderives hrest).map
    steps_completeLocal fun _ hd => ?_)
  have hafter := hd.completeLocal rfl hscopes
  rw [← hpending] at hafter
  simpa [Decl.afterVar, Sketch.extend, Decl.varConstants, Decl.varCode, hscopes] using hafter

/-- **The declaration of a variable** whose keyword has been passed. -/
theorem Matches.varDeclaration (h : d.Matches s) (hpending : s.pending = none) {name : String}
    {value : Option Expr} {ts : List Token} (hderives : Decl.DerivesVar name value ts)
    (hrest : s.rest = ts ++ rest) :
    (d.varDeclaration levels).Meets (Decl.FitsVar levels s.limit s.scopes s.pool name value)
      (·.Matches (Decl.afterVar s name value rest)) := by
  obtain ⟨t, us, rfl, ht, hname⟩ := exists_cons_of_derivesVar hderives
  have hrest' : s.rest = t :: (us ++ rest) := hrest
  have hexpect : d.expect .identifier .variableName = d.advance :=
    h.expect_eq (by rw [hrest']; exact ht) .variableName
  have hd := h.advance hrest'
  have hglobal : d.advance.scope.isGlobal = decide (s.scopes = []) := by
    rw [hd.scope, LocalScope.isGlobal_ofScopes]
  rw [Draft.varDeclaration, hexpect, h.previous_advance hrest', hname]
  simp only
  rw [hglobal]
  cases hscopes : s.scopes with
  | nil =>
    rw [if_pos (decide_eq_true rfl), ← hscopes]
    exact hd.globalDeclaration hpending hscopes hderives rfl
  | cons scope outer =>
    rw [if_neg (by simp), ← hscopes]
    exact hd.localDeclaration hpending hscopes hderives rfl

/-! ### Statements with a body -/

/-- The function compiles every statement that fits into a number of levels of nesting, unless an
`else` follows that would belong to the statement. -/
def CompilesStatements (levels : Nat) (body : Draft → Draft) : Prop :=
  ∀ {st : Stmt} {ts rest : List Token} {d : Draft} {s : Sketch},
    st.Derives ts → d.Matches s → s.pending = none → s.rest = ts ++ rest →
      (st.endsOpen = true → headKind rest ≠ .kwElse) →
      (body d).Meets (st.Fits levels s.limit s.scopes s.pool) (·.Matches (st.after s rest))

/-- A condition in parentheses. -/
theorem Matches.condition (h : d.Matches s) {e : Expr} {u v : Token} {ts : List Token}
    (hrest : s.rest = u :: (ts ++ v :: rest)) (hu : u.kind = .leftParen)
    (hderives : e.Derives .assignment ts) (hv : v.kind = .rightParen) (what : Expectation) :
    (((d.expect .leftParen what).expression levels).expect .rightParen .closeCondition).Meets
      (e.Fits levels s.scopes s.pending s.pool) (·.Matches (e.after s rest)) :=
  (h.expect hrest hu what).expressionUpTo hderives rfl hv rfl nofun .closeCondition

/-! ### Loops -/

/-- The start of a loop before the jump out of it is patched. -/
def openHead : Option (List Instruction) → List UInt8
  | some condition =>
    codeBytes condition ++ [OpCode.jumpIfFalse.toByte, 0xFF, 0xFF] ++ [OpCode.pop.toByte]
  | none => []

/-- The jump back at the end of a loop, and where the jump out of it leads to. -/
def closeLoop (again : Nat) (done : Option Nat) (d : Draft) : Draft :=
  match done with
  | some done => ((d.emitLoop again).patchJump done).emitOp .pop
  | none => d.emitLoop again

theorem steps_closeLoop (again : Nat) (done : Option Nat) (d : Draft) :
    Steps true d (closeLoop again done d) := by
  cases done with
  | some done => exact ((steps_emitLoop d _).trans (steps_patchJump _ _)).trans (steps_emitOp _ _)
  | none => exact steps_emitLoop d _

@[simp] theorem length_openHead (condition : Option (List Instruction)) :
    (openHead condition).length = loopHeadSize condition := by
  cases condition <;> simp [openHead, loopHeadSize]

/-- The bytes of the start of a loop. -/
theorem codeBytes_loopHead (exit : Nat) (condition : List Instruction) :
    codeBytes (loopHead exit (some condition)) =
      codeBytes condition ++ jumpBytes .jumpIfFalse exit ++ [OpCode.pop.toByte] := by
  simp [loopHead, Instruction.bytes, OpCode.operand, jumpBytes]

/-- **Closing a loop** whose start stands after `before` and whose body and increment are
`middle`. The jump back leads over `back`. -/
theorem Matches.closeLoop (h : d.Matches s) {before middle target back : List UInt8}
    (condition : Option (List Instruction))
    (hcode : s.code = before ++ openHead condition ++ middle) (hback : s.code = target ++ back) :
    (Draft.closeLoop target.length (condition.map (before.length + codeSize · + 1)) d).Meets
      (back.length + 3 ≤ maxDistance ∧
        (condition.isSome → 1 + middle.length + 3 ≤ maxDistance))
      (·.Matches { s with code := before ++ codeBytes (loopHead (1 + middle.length + 3) condition) ++
        middle ++ jumpBytes .loop (back.length + 3) ++ codeBytes (loopExit condition) }) := by
  have hloop := h.emitLoop hback
  cases condition with
  | none =>
    refine hloop.congr (iff_self_and.mpr fun _ => nofun) fun _ hmatches => ?_
    simpa [hcode, openHead, loopHead, loopExit] using hmatches
  | some condition =>
    refine hloop.bind (fun d => (steps_patchJump d _).trans (steps_emitOp _ _)) fun _ hd => ?_
    have hpatch := hd.patchJump (show _ = before ++ codeBytes condition ++
        [OpCode.jumpIfFalse.toByte, 0xFF, 0xFF] ++
        (OpCode.pop.toByte :: (middle ++ jumpBytes .loop (back.length + 3))) by
      simp [hcode, openHead])
    have hlength : (OpCode.pop.toByte :: (middle ++ jumpBytes .loop (back.length + 3))).length =
        1 + middle.length + 3 := by
      simp [jumpBytes]
      omega
    have hplace : (before ++ codeBytes condition).length = before.length + codeSize condition := by
      simp
    rw [hlength, hplace] at hpatch
    refine Meets.of_iff (by simp) (hpatch.map (fun d => steps_emitOp d _) fun _ hpatched => ?_)
    have hpop := hpatched.emitOp .pop
    rw [codeBytes_loopHead]
    simpa [loopExit, Instruction.bytes, OpCode.operand] using hpop

/-! ### The clauses of for statements -/

/-- The code of a clause of a for statement, if there is one. -/
def clauseCode (scopes : Scopes) (pool : Pool) (clause : Option Expr) :
    Option (List Instruction) := clause.map (·.code scopes pool)

/-- The first clause. -/
theorem Matches.forInitial (h : d.Matches s) (hpending : s.pending = none) {first : ForInit}
    {ts : List Token} (hderives : first.Derives ts) (hrest : s.rest = ts ++ rest) :
    (d.forInitial levels).Meets (first.Fits levels s.limit s.scopes s.pool)
      (·.Matches (first.after s rest)) := by
  rw [Draft.forInitial, h.check, h.check]
  cases hderives with
  | none closing =>
    rw [hrest, List.cons_append, headKind_cons, closing, if_pos (by decide)]
    refine .of_wanted ?_ ⟨Nat.zero_le _, trivial, h.pool.bound, jumpsFit_nil⟩
    simpa [ForInit.after, Sketch.extend, ForInit.constants, ForInit.code, ForInit.scopesAfter]
      using h.advance hrest
  | var keyword hvar =>
    rw [hrest, List.cons_append, headKind_cons, keyword, if_neg (by decide), if_pos (by decide)]
    exact (h.advance hrest).varDeclaration hpending hvar rfl
  | @expression e t ts hexpr closing =>
    obtain ⟨u, us, rfl, hu⟩ := hexpr.exists_cons
    have hsemicolon : u.kind ≠ .semicolon := by
      intro heq
      rw [heq] at hu
      exact absurd hu (by decide)
    have hvar : u.kind ≠ .kwVar := by
      intro heq
      rw [heq] at hu
      exact absurd hu (by decide)
    rw [hrest, List.cons_append, List.cons_append, headKind_cons, if_neg (by simpa using hsemicolon),
      if_neg (by simpa using hvar)]
    refine Meets.of_iff ?_ ((h.expressionUpTo hexpr
      (show s.rest = u :: us ++ t :: rest by simp [hrest]) closing rfl (by rintro ⟨⟩) .endOfExpression).map
      (fun d => steps_emitOp d .pop) fun _ hd => ?_)
    · rw [hpending]
      constructor
      · rintro ⟨hn, -, hc, hj⟩
        exact ⟨hn, trivial, hc, (jumpsFit_append _ _).mpr ⟨hj, Expr.jumpsFit_ops [.pop]⟩⟩
      · rintro ⟨hn, -, hc, hj⟩
        exact ⟨hn, (by rintro name ⟨⟩), hc, ((jumpsFit_append _ _).mp hj).1⟩
    · simpa [ForInit.after, Sketch.extend, ForInit.constants, ForInit.code, ForInit.scopesAfter,
        Expr.after, Instruction.bytes, OpCode.operand] using hd.emitOp .pop

/-- The condition, and the place of the jump out of the loop. -/
theorem Matches.forCondition (h : d.Matches s) {condition : Option Expr} {ts : List Token}
    {v : Token} (hderives : Expr.DerivesOption condition ts) (hrest : s.rest = ts ++ v :: rest)
    (hv : v.kind = .semicolon) :
    (d.forCondition levels).2.Meets (Expr.FitsOption levels s.scopes s.pending s.pool condition)
      fun d' => d'.Matches { s with
          pool := s.pool.addAll (Expr.constantsOption s.scopes condition)
          code := s.code ++ openHead (clauseCode s.scopes s.pool condition)
          rest } ∧
        (d.forCondition levels).1 =
          (clauseCode s.scopes s.pool condition).map (s.code.length + codeSize · + 1) := by
  cases hderives with
  | none =>
    have heq : d.forCondition levels = (none, d.advance) := by
      rw [Draft.forCondition, h.check, hrest, List.nil_append, headKind_cons, hv,
        if_pos (by decide)]
    rw [heq]
    refine .of_wanted ⟨?_, rfl⟩ trivial
    simpa [Expr.constantsOption, clauseCode, openHead] using h.advance hrest
  | @some e ts hexpr =>
    obtain ⟨u, us, rfl, hu⟩ := hexpr.exists_cons
    have hsemicolon : u.kind ≠ .semicolon := by
      intro heq
      rw [heq] at hu
      exact absurd hu (by decide)
    have hcheck : ¬(d.check .semicolon) = true := by
      rw [h.check, hrest, List.cons_append, headKind_cons]
      simpa using hsemicolon
    have heq : d.forCondition levels =
        (some (((d.expression levels).expect .semicolon .endOfLoopCondition).emitJump
            .jumpIfFalse).1,
          (((d.expression levels).expect .semicolon .endOfLoopCondition).emitJump
            .jumpIfFalse).2.emitOp .pop) := by
      rw [Draft.forCondition, if_neg hcheck]
    rw [heq]
    refine (h.expressionUpTo hexpr hrest hv rfl (by rintro ⟨⟩) .endOfLoopCondition).map
      (fun d => (steps_emitJump d _).trans (steps_emitOp _ _)) fun _ hd => ?_
    obtain ⟨hdone, hjump⟩ := hd.emitJump .jumpIfFalse
    rw [hdone]
    refine ⟨?_, ?_⟩
    · simpa [Expr.after, Sketch.extend, Expr.constantsOption, clauseCode, openHead] using
        hjump.emitOp .pop
    · simp [Expr.after, Sketch.extend, clauseCode]

/-- The last clause, whose code stands before the body. The condition starts after `before`. -/
theorem Matches.forIncrement (h : d.Matches s) (levels : Nat) {increment : Option Expr} {ts : List Token}
    {w : Token} (hderives : Expr.DerivesOption increment ts) (hrest : s.rest = ts ++ w :: rest)
    (hw : w.kind = .rightParen) {before head : List UInt8} (hcode : s.code = before ++ head)
    {code : Option (List Instruction)} (hclauseCode : code = clauseCode s.scopes s.pool increment)
    {size : Nat} (hsize : head.length = size) :
    (d.forIncrement levels before.length).2.Meets
      (Expr.FitsOption levels s.scopes s.pending s.pool increment ∧ JumpsFit (loopStep size code))
      fun d' => d'.Matches { s with
          pool := s.pool.addAll (Expr.constantsOption s.scopes increment)
          code := s.code ++ codeBytes (loopStep size code)
          rest } ∧
        ∃ target back, s.code ++ codeBytes (loopStep size code) = target ++ back ∧
          back.length = loopBack size code ∧
          (d.forIncrement levels before.length).1 = target.length := by
  subst hclauseCode hsize
  cases hderives with
  | none =>
    have heq : d.forIncrement levels before.length = (before.length, d.advance) := by
      rw [Draft.forIncrement, h.check, hrest, List.nil_append, headKind_cons, hw,
        if_pos (by decide)]
    rw [heq]
    refine .of_wanted ⟨?_, before, head, ?_, ?_, rfl⟩ ⟨trivial, ?_⟩
    · simpa [Expr.constantsOption, clauseCode, loopStep] using h.advance hrest
    · simpa [clauseCode, loopStep] using hcode
    · simp [clauseCode, loopBack]
    · simp [clauseCode, loopStep]
  | @some e ts hexpr =>
    obtain ⟨u, us, rfl, hu⟩ := hexpr.exists_cons
    have hparen : u.kind ≠ .rightParen := by
      intro heq
      rw [heq] at hu
      exact absurd hu (by decide)
    have hcheck : ¬(d.check .rightParen) = true := by
      rw [h.check, hrest, List.cons_append, headKind_cons]
      simpa using hparen
    obtain ⟨hplace, hjump⟩ := h.emitJump .jump
    have heq : d.forIncrement levels before.length =
        (s.code.length + 3, (((((d.emitJump .jump).2.expression levels).emitOp .pop).expect
          .rightParen .closeFor).emitLoop before.length).patchJump (s.code.length + 1)) := by
      rw [Draft.forIncrement, if_neg hcheck]
      simp only [hplace, hjump.size_eq, List.length_append, List.length_cons, List.length_nil]
    have hstep : codeBytes (loopStep head.length (some (e.code s.scopes s.pool))) =
        jumpBytes .jump (codeSize (e.code s.scopes s.pool) + 4) ++
          (codeBytes (e.code s.scopes s.pool) ++ (OpCode.pop.toByte ::
            jumpBytes .loop (head.length + codeSize (e.code s.scopes s.pool) + 7))) := by
      simp [loopStep, Instruction.bytes, OpCode.operand, jumpBytes]
    have hfits : ∀ {p : Prop} (_ : p → JumpsFit (e.code s.scopes s.pool)),
        (p ∧ head.length + codeSize (e.code s.scopes s.pool) + 7 ≤ maxDistance ∧
          codeSize (e.code s.scopes s.pool) + 4 ≤ maxDistance) ↔
        (p ∧ JumpsFit (loopStep head.length (some (e.code s.scopes s.pool)))) := by
      intro p hp
      refine and_congr_right fun h => ?_
      have hjumps := hp h
      simp [loopStep, hjumps, Instruction.isJump, OpCode.operand, OperandKind.size, maxDistance]
      exact and_comm
    have hclauseCode : clauseCode s.scopes s.pool (some e) = some (e.code s.scopes s.pool) := rfl
    rw [heq, hclauseCode]
    refine Meets.of_iff (hfits Fits.jumps) ?_
    have hclause : ((((d.emitJump .jump).2.expression levels).emitOp .pop).expect .rightParen
        .closeFor).Meets (e.Fits levels s.scopes s.pending s.pool) (·.Matches { s with
          pool := s.pool.addAll (e.constants s.scopes)
          code := s.code ++ [OpCode.jump.toByte, 0xFF, 0xFF] ++
            codeBytes (e.code s.scopes s.pool) ++ [OpCode.pop.toByte]
          rest }) :=
      (hjump.expression hexpr hrest (by rw [hw]; rfl) (by rw [hw]; rintro ⟨⟩)).map
        (fun d => (steps_emitOp d .pop).trans (steps_expect _ .rightParen .closeFor))
        fun _ hd => (hd.emitOp .pop).expect rfl hw .closeFor
    refine hclause.bind
      (fun d => (steps_emitLoop d _).trans (steps_patchJump _ _)) fun _ hd => ?_
    have hloop := hd.emitLoop (show _ = before ++ (head ++ [OpCode.jump.toByte, 0xFF, 0xFF] ++
        codeBytes (e.code s.scopes s.pool) ++ [OpCode.pop.toByte]) by
      simp [hcode])
    have hlength : (head ++ [OpCode.jump.toByte, 0xFF, 0xFF] ++
        codeBytes (e.code s.scopes s.pool) ++ [OpCode.pop.toByte]).length + 3 =
        head.length + codeSize (e.code s.scopes s.pool) + 7 := by
      simp
      omega
    rw [hlength] at hloop
    refine hloop.bind (fun d => steps_patchJump d _) fun _ hlooped => ?_
    have hpatch := hlooped.patchJump (show _ = s.code ++ [OpCode.jump.toByte, 0xFF, 0xFF] ++
        (codeBytes (e.code s.scopes s.pool) ++ (OpCode.pop.toByte ::
          jumpBytes .loop (head.length + codeSize (e.code s.scopes s.pool) + 7))) by
      simp)
    have hlength' : (codeBytes (e.code s.scopes s.pool) ++ (OpCode.pop.toByte ::
        jumpBytes .loop (head.length + codeSize (e.code s.scopes s.pool) + 7))).length =
        codeSize (e.code s.scopes s.pool) + 4 := by
      simp [jumpBytes]
    rw [hlength'] at hpatch
    refine hpatch.congr Iff.rfl fun _ hmatches =>
      ⟨?_, s.code ++ jumpBytes .jump (codeSize (e.code s.scopes s.pool) + 4), _, ?_, hlength', ?_⟩
    · rw [hstep, ← List.append_assoc]
      exact hmatches
    · rw [hstep, ← List.append_assoc]
    · simp [jumpBytes]

section Bodies

variable {body : Draft → Draft} (hsteps : ∀ d, Steps true d (body d))
  (hbody : CompilesStatements levels body)

/-- The branch after an `else`, if there is one. -/
def elseBranch (body : Draft → Draft) (d : Draft) : Draft :=
  if d.check .kwElse then body d.advance else d

/-- What is left of an if statement after its first branch. -/
def ifRest (body : Draft → Draft) (other : Nat) (d : Draft) : Draft :=
  (elseBranch body (((d.emitJump .jump).2.patchJump other).emitOp .pop)).patchJump
    (d.emitJump .jump).1

include hsteps

theorem steps_elseBranch (d : Draft) : Steps true d (elseBranch body d) := by
  rw [elseBranch]
  split
  · exact (steps_advance d).trans (hsteps _)
  · exact .refl

theorem steps_ifRest (other : Nat) (d : Draft) : Steps true d (ifRest body other d) :=
  ((((steps_emitJump d _).trans (steps_patchJump _ _)).trans (steps_emitOp _ _)).trans
    (steps_elseBranch hsteps _)).trans (steps_patchJump _ _)

include hbody

/-- **If statements**, whatever the second branch is. -/
theorem Matches.ifStatement (h : d.Matches s) (hpending : s.pending = none) {e : Expr} {st : Stmt}
    {u v : Token} {ts us rest' : List Token} (hrest : s.rest = u :: (ts ++ v :: (us ++ rest')))
    (hu : u.kind = .leftParen) (hcondition : e.Derives .assignment ts) (hv : v.kind = .rightParen)
    (hst : st.Derives us) (hopen : st.endsOpen = true → headKind rest' ≠ .kwElse)
    (rest : List Token) (constants : List Datum) (code : Pool → List Instruction)
    (fits : Pool → Prop) (helse : ∀ {d : Draft} {s' : Sketch}, d.Matches s' → s'.limit = s.limit →
      s'.scopes = s.scopes → s'.pending = none → s'.rest = rest' →
      (elseBranch body d).Meets (fits s'.pool)
        (·.Matches (s'.extend constants (code s'.pool) rest))) :
    let pool₁ := s.pool.addAll (e.constants s.scopes)
    let pool₂ := pool₁.addAll (st.constants s.scopes)
    (d.ifStatement levels body).Meets
      (e.Fits levels s.scopes s.pending s.pool ∧ st.Fits levels s.limit s.scopes pool₁ ∧
        1 + codeSize (st.code s.scopes pool₁) + 3 ≤ maxDistance ∧ fits pool₂ ∧
        1 + codeSize (code pool₂) ≤ maxDistance)
      (·.Matches (s.extend (e.constants s.scopes ++ st.constants s.scopes ++ constants)
        (e.code s.scopes s.pool ++ choice (st.code s.scopes pool₁) (code pool₂)) rest)) := by
  intro pool₁ pool₂
  have hsteps' : ∀ d : Draft, Steps true d
      (ifRest body (d.emitJump .jumpIfFalse).1 (body ((d.emitJump .jumpIfFalse).2.emitOp .pop))) :=
    fun d => (((steps_emitJump d _).trans (steps_emitOp _ _)).trans (hsteps _)).trans
      (steps_ifRest hsteps _ _)
  refine (h.condition hrest hu hcondition hv .openIf).bind hsteps' fun _ hd => ?_
  obtain ⟨hother, hjump⟩ := hd.emitJump .jumpIfFalse
  rw [hother]
  refine (hbody hst (hjump.emitOp .pop) hpending rfl hopen).bind (steps_ifRest hsteps _)
    fun _ hthen => ?_
  obtain ⟨hdone, hskip⟩ := hthen.emitJump .jump
  rw [ifRest, hdone]
  -- The first jump leads over the first branch and the jump after it.
  have hfirst := hskip.patchJump (show _ = (e.after s (us ++ rest')).code ++
      [OpCode.jumpIfFalse.toByte, 0xFF, 0xFF] ++ (OpCode.pop.toByte ::
        (codeBytes (st.code s.scopes pool₁) ++ [OpCode.jump.toByte, 0xFF, 0xFF])) by
    simp [Stmt.after, Expr.after, Sketch.extend, pool₁])
  have hlength : (OpCode.pop.toByte :: (codeBytes (st.code s.scopes pool₁) ++
      [OpCode.jump.toByte, 0xFF, 0xFF])).length = 1 + codeSize (st.code s.scopes pool₁) + 3 := by
    simp
    omega
  rw [hlength] at hfirst
  have hsteps'' : ∀ (n : Nat) (d : Draft),
      Steps true d ((elseBranch body (d.emitOp .pop)).patchJump n) := fun n d =>
    ((steps_emitOp d _).trans (steps_elseBranch hsteps _)).trans (steps_patchJump _ _)
  refine hfirst.bind (hsteps'' _) fun _ hpatched => ?_
  refine (helse (hpatched.emitOp .pop) rfl rfl hpending rfl).bind (fun d => steps_patchJump d _)
    fun _ hend => ?_
  -- The second jump leads over the second branch.
  have hsecond := hend.patchJump (show _ = ((e.after s (us ++ rest')).code ++
      jumpBytes .jumpIfFalse (1 + codeSize (st.code s.scopes pool₁) + 3) ++
      (OpCode.pop.toByte :: codeBytes (st.code s.scopes pool₁))) ++
      [OpCode.jump.toByte, 0xFF, 0xFF] ++ (OpCode.pop.toByte :: codeBytes (code pool₂)) by
    simp [Stmt.after, Expr.after, Sketch.extend, pool₁, pool₂])
  have hplace : ((e.after s (us ++ rest')).code ++
      jumpBytes .jumpIfFalse (1 + codeSize (st.code s.scopes pool₁) + 3) ++
      (OpCode.pop.toByte :: codeBytes (st.code s.scopes pool₁))).length + 1 =
      (st.after { e.after s (us ++ rest') with
        code := (e.after s (us ++ rest')).code ++ [OpCode.jumpIfFalse.toByte, 0xFF, 0xFF] ++
          [OpCode.pop.toByte] } rest').code.length + 1 := by
    simp [Stmt.after, Expr.after, Sketch.extend, jumpBytes, pool₁]
  rw [← hplace]
  refine hsecond.congr ?_ fun _ hmatches => ?_
  · simp [Nat.add_comm]
  · simpa [Stmt.after, Expr.after, Sketch.extend, choice, Instruction.bytes, OpCode.operand,
      jumpBytes, Pool.addAll_append, Nat.add_comm, pool₁, pool₂] using hmatches

/-- **While statements.** -/
theorem Matches.whileStatement (h : d.Matches s) (hpending : s.pending = none) {e : Expr}
    {st : Stmt} {u v : Token} {ts us : List Token} (hrest : s.rest = u :: (ts ++ v :: (us ++ rest)))
    (hu : u.kind = .leftParen) (hcondition : e.Derives .assignment ts) (hv : v.kind = .rightParen)
    (hst : st.Derives us) (hopen : st.endsOpen = true → headKind rest ≠ .kwElse) :
    let code := e.code s.scopes s.pool
    let pool₁ := s.pool.addAll (e.constants s.scopes)
    (d.whileStatement levels body).Meets
      (e.Fits levels s.scopes s.pending s.pool ∧ st.Fits levels s.limit s.scopes pool₁ ∧
        loopHeadSize (some code) + codeSize (st.code s.scopes pool₁) + 3 ≤ maxDistance ∧
        1 + codeSize (st.code s.scopes pool₁) + 3 ≤ maxDistance)
      (·.Matches (s.extend (e.constants s.scopes ++ st.constants s.scopes)
        (repeating (some code) none (st.code s.scopes pool₁)) rest)) := by
  intro code pool₁
  have hsteps' : ∀ d' : Draft, Steps true d' (Draft.closeLoop d.size
      (some (d'.emitJump .jumpIfFalse).1) (body ((d'.emitJump .jumpIfFalse).2.emitOp .pop))) :=
    fun d' => (((steps_emitJump d' _).trans (steps_emitOp _ _)).trans (hsteps _)).trans
      (steps_closeLoop _ _ _)
  refine (h.condition hrest hu hcondition hv .openWhile).bind hsteps' fun _ hd => ?_
  obtain ⟨hdone, hjump⟩ := hd.emitJump .jumpIfFalse
  rw [hdone, h.size_eq]
  refine (hbody hst (hjump.emitOp .pop) hpending rfl hopen).bind (steps_closeLoop _ _)
    fun _ hthen => ?_
  have hplace : (e.after s (us ++ rest)).code.length + 1 = s.code.length + codeSize code + 1 := by
    simp [Expr.after, Sketch.extend, code]
  have hclose := hthen.closeLoop (some code)
    (show _ = s.code ++ openHead (some code) ++ codeBytes (st.code s.scopes pool₁) by
      simp [Stmt.after, Expr.after, Sketch.extend, openHead, code, pool₁])
    (show _ = s.code ++ (openHead (some code) ++ codeBytes (st.code s.scopes pool₁)) by
      simp [Stmt.after, Expr.after, Sketch.extend, openHead, code, pool₁])
  rw [hplace]
  refine hclose.congr ?_ fun _ hmatches => ?_
  · simp
  · simpa [Stmt.after, Expr.after, Sketch.extend, repeating, loopStep, loopBack, Instruction.bytes,
      OpCode.operand, jumpBytes, Pool.addAll_append, code, pool₁] using hmatches

omit hbody hsteps in
/-- A for statement after its first clause, up to the end of the loop. -/
def loopRest (levels : Nat) (body : Draft → Draft) (d : Draft) : Draft :=
  Draft.closeLoop ((d.forCondition levels).2.forIncrement levels d.size).1
    (d.forCondition levels).1 (body ((d.forCondition levels).2.forIncrement levels d.size).2)

omit hbody in
theorem steps_loopRest (d : Draft) : Steps true d (loopRest levels body d) :=
  (((steps_forCondition d levels).trans (steps_forIncrement _ levels _)).trans (hsteps _)).trans
    (steps_closeLoop _ _ _)

/-- **The loop of a for statement.** -/
theorem Matches.loopRest (h : d.Matches s) (hpending : s.pending = none)
    {condition increment : Option Expr} {st : Stmt} {v w : Token} {cs is us : List Token}
    (hrest : s.rest = cs ++ v :: (is ++ w :: (us ++ rest)))
    (hcondition : Expr.DerivesOption condition cs) (hv : v.kind = .semicolon)
    (hincrement : Expr.DerivesOption increment is) (hw : w.kind = .rightParen)
    (hst : st.Derives us) (hopen : st.endsOpen = true → headKind rest ≠ .kwElse) :
    let pool₁ := s.pool.addAll (Expr.constantsOption s.scopes condition)
    let pool₂ := pool₁.addAll (Expr.constantsOption s.scopes increment)
    let head := clauseCode s.scopes s.pool condition
    let step := clauseCode s.scopes pool₁ increment
    let code := st.code s.scopes pool₂
    (Draft.loopRest levels body d).Meets
      (Expr.FitsOption levels s.scopes s.pending s.pool condition ∧
        (Expr.FitsOption levels s.scopes s.pending pool₁ increment ∧
          JumpsFit (loopStep (loopHeadSize head) step)) ∧
        st.Fits levels s.limit s.scopes pool₂ ∧
        loopBack (loopHeadSize head) step + codeSize code + 3 ≤ maxDistance ∧
        (head.isSome → 1 + codeSize (loopStep (loopHeadSize head) step) + codeSize code + 3 ≤
          maxDistance))
      (·.Matches (s.extend (Expr.constantsOption s.scopes condition ++
        Expr.constantsOption s.scopes increment ++ st.constants s.scopes)
        (repeating head step code) rest)) := by
  intro pool₁ pool₂ head step code
  rw [Draft.loopRest, h.size_eq]
  have hafter := fun d' : Draft => ((steps_forIncrement d' levels s.code.length).trans
    (hsteps _)).trans (steps_closeLoop (d'.forIncrement levels s.code.length).1
      (d.forCondition levels).1 _)
  refine (h.forCondition hcondition hrest hv).bind hafter fun _ hd => ?_
  obtain ⟨hd, hdone⟩ := hd
  rw [hdone]
  have hafter' := fun d' : Draft => (hsteps d').trans (steps_closeLoop
    ((d.forCondition levels).2.forIncrement levels s.code.length).1
    (head.map (s.code.length + codeSize · + 1)) _)
  have hinc := hd.forIncrement levels hincrement rfl hw
    (show _ = s.code ++ openHead head from rfl) (show step = _ from rfl) (length_openHead head)
  refine hinc.bind hafter' fun _ hd' => ?_
  obtain ⟨hd', target, back, hback, hlength, hagain⟩ := hd'
  rw [hagain]
  refine (hbody hst hd' hpending rfl hopen).bind (steps_closeLoop _ _) fun _ hend => ?_
  have hclose := hend.closeLoop head
    (show _ = s.code ++ openHead head ++ (codeBytes (loopStep (loopHeadSize head) step) ++
      codeBytes code) by simp [Stmt.after, Sketch.extend, code, pool₁, pool₂, head])
    (show _ = target ++ (back ++ codeBytes code) by
      rw [← List.append_assoc, ← hback]
      rfl)
  refine hclose.congr ?_ fun _ hmatches => ?_
  · simp [hlength, Nat.add_assoc]
  · simpa [Stmt.after, Sketch.extend, repeating, Instruction.bytes, OpCode.operand, jumpBytes,
      Pool.addAll_append, hlength, Nat.add_assoc, code, pool₁, pool₂, head] using hmatches

end Bodies

end Draft

end Lox
