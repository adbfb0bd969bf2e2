import Lox.Proofs.Counted.Expression

/-!
# Counting the nesting of statements

Statements and declarations leave the scope settled if they find it so, at the depth at which it was.
In between a statement may open scopes, and a declaration have a local that is not initialized yet,
but expressions are all that is compiled then.

## Main definitions

* `LocalScope.SettledAt`: a scope is settled at a depth.
* `Counted.Balanced`: what statements and declarations do.
* `Counted.Advances`: a piece reads something, or a declaration has been compiled at the limit.
* `Counted.Declares`: what sequences of declarations do.

## Main results

* `Counted.balanced_varDeclaration`, `Counted.balanced_forStatement`: what changes the scope.
* `Counted.balanced_statement`, `Counted.balanced_declaration`: statements and declarations.
* `Counted.balanced_declarations`: declarations in sequence, however long one waits for their end.
-/

namespace Lox

/-- The scope is settled, and this deep. -/
def LocalScope.SettledAt (limits : Limits) (depth : Nat) (scope : LocalScope) : Prop :=
  scope.depth = depth ∧ scope.Settled limits.locals

/-- The scope is this deep, and settled once its latest local is marked. -/
def LocalScope.SettlesAt (limits : Limits) (depth : Nat) (scope : LocalScope) : Prop :=
  scope.depth = depth ∧ scope.complete.Settled limits.locals

theorem LocalScope.SettledAt.enter {limits : Limits} {depth : Nat} {scope : LocalScope}
    (h : scope.SettledAt limits depth) : scope.enter.SettledAt limits (depth + 1) :=
  ⟨congrArg (· + 1) h.1, h.2.enter⟩

theorem LocalScope.SettledAt.leave {limits : Limits} {depth : Nat} {scope : LocalScope}
    (h : scope.SettledAt limits (depth + 1)) : scope.leave.SettledAt limits depth :=
  ⟨congrArg (· - 1) h.1, h.2.leave⟩

namespace Counted

open LocalScope (SettledAt SettlesAt)

/-- The piece leaves a scope settled that it finds settled, and as deep as it is. -/
def Balanced (limits : Limits) (patience n : Nat) (piece : Counted → Counted) (f : Draft → Draft) :
    Prop :=
  ∀ depth, Follows limits patience n (SettledAt limits depth) (SettledAt limits depth) piece f

/-- Before the end of the source the piece reads something, or a declaration has been compiled with
no level of nesting left. -/
def Advances (limits : Limits) (n : Nat) (piece : Counted → Counted) (f : Draft → Draft) : Prop :=
  ∀ s, s.nesting = n → s.draft.last.kind = .endOfSource → s.draft.current.kind ≠ .endOfSource →
    (f s.draft).ahead.length < s.draft.ahead.length ∨ (piece s).ReachesLimit limits

variable {limits : Limits} {patience n : Nat} {P Q : LocalScope → Prop} {depth : Nat}

theorem follows_endScope : Follows limits patience n (SettledAt limits (depth + 1))
    (SettledAt limits depth) (on n .endScope) .endScope :=
  .on Draft.steps_endScope fun d hd => by
    rw [Draft.scope_endScope]
    exact hd.leave

/-! ### Declarations of variables -/

section Clauses

variable {expr : Precedence → Counted → Counted} {levels : Nat}
  (hexpr : ∀ level, Keeps limits patience n (expr level) (Draft.expressionAt levels level))

include hexpr

theorem keeps_expressionStatement : Keeps limits patience n (expressionStatement n expr)
    (Draft.expressionStatement levels) :=
  (hexpr .assignment).andThen (.on fun d =>
    (d.plain_expect .semicolon .endOfExpression).trans (Draft.plain_emitOp _ .pop))

theorem keeps_printStatement : Keeps limits patience n (printStatement n expr)
    (Draft.printStatement levels) :=
  (hexpr .assignment).andThen (.on fun d =>
    (d.plain_expect .semicolon .endOfPrint).trans (Draft.plain_emitOp _ .print))

theorem keeps_initialValue : Keeps limits patience n (initialValue n expr)
    (Draft.initialValue levels) :=
  (Keeps.ite (·.check .equal) ((Keeps.on Draft.plain_advance).andThen (hexpr .assignment))
    (.on fun d => d.plain_emitOp .nil)).andThen
    (.on fun d => d.plain_expect .semicolon .endOfVariable)

/-- **A declaration of a variable.** In the global scope it leaves the scope as it is. A local is
marked in the end; if it could not be declared, that is the one before. -/
theorem balanced_varDeclaration : Balanced limits patience n (varDeclaration n expr)
    (Draft.varDeclaration levels) := by
  have hafter : ∀ depth, Follows limits patience n (SettledAt limits depth) (SettledAt limits depth)
      (fun s => if s.draft.scope.isGlobal then
          (initialValue n expr (s.take n (·.stringConstant s.draft.previous.lexeme)).2).on n
            (·.emitOpByte .defineGlobal (s.take n (·.stringConstant s.draft.previous.lexeme)).1)
        else (initialValue n expr (s.on n (·.declareLocal s.draft.previous.lexeme))).on n
          .completeLocal)
      (fun d => if d.scope.isGlobal then
          ((d.stringConstant d.previous.lexeme).2.initialValue levels).emitOpByte .defineGlobal
            (d.stringConstant d.previous.lexeme).1
        else ((d.declareLocal d.previous.lexeme).initialValue levels).completeLocal) := by
    refine fun depth => .of_at fun s _ hP => ?_
    by_cases hglobal : s.draft.scope.isGlobal = true
    · simp only [if_pos hglobal]
      exact ⟨_, _, rfl, fun _ => rfl, Keeps.take (fun d => d.plain_stringConstant _)
        (fun index => (keeps_initialValue hexpr).andThen
          (.on fun d => d.plain_emitOpByte .defineGlobal index)) _⟩
    · simp only [if_neg hglobal]
      have hlocal : 1 ≤ depth := by
        rw [LocalScope.isGlobal, hP.1, beq_iff_eq] at hglobal
        exact Nat.pos_of_ne_zero hglobal
      have hdeclare : ∀ d : Draft, SettledAt limits depth d.scope →
          SettlesAt limits depth (d.declareLocal s.draft.previous.lexeme).scope := by
        rintro d ⟨rfl, hsettled⟩
        exact Draft.settled_declareLocal hsettled hlocal _
      exact ⟨_, _, rfl, fun _ => rfl,
        ((Follows.on (Draft.steps_declareLocal · _) hdeclare).andThen
          (keeps_initialValue hexpr _)).andThen (.on Draft.steps_completeLocal fun d hd =>
            ⟨(LocalScope.depth_complete _).trans hd.1, hd.2⟩)⟩
  exact fun depth => ((Keeps.on fun d => d.plain_expect .identifier .variableName) _).andThen
    (hafter depth)

/-! ### Statements with a body -/

variable {body : Counted → Counted} {b : Draft → Draft} (hbody : Balanced limits patience n body b)

include hbody

theorem balanced_ifStatement : Balanced limits patience n (ifStatement n expr body)
    (Draft.ifStatement levels b) := by
  intro depth
  have hcondition := ((Keeps.on fun d => d.plain_expect .leftParen .openIf).andThen
    (hexpr .assignment)).andThen (.on fun d => d.plain_expect .rightParen .closeCondition)
  have hotherwise := fun done => (Follows.ite (·.check .kwElse)
    ((Keeps.on Draft.plain_advance _).andThen (hbody depth)) (keeps_id _)).andThen
      (Keeps.on (fun d => d.plain_patchJump done) _)
  have hthen := fun other => (((Keeps.on fun d => d.plain_emitOp .pop) _).andThen
    (hbody depth)).andThen (Follows.jump .jump fun done =>
      ((Keeps.on fun d => d.plain_land other) _).andThen (hotherwise done))
  have hwhole := (hcondition _).andThen (Follows.jump .jumpIfFalse hthen)
  exact hwhole

theorem balanced_whileStatement : Balanced limits patience n (whileStatement n expr body)
    (Draft.whileStatement levels b) := by
  intro depth
  have hcondition := ((Keeps.on fun d => d.plain_expect .leftParen .openWhile).andThen
    (hexpr .assignment)).andThen (.on fun d => d.plain_expect .rightParen .closeCondition)
  have hround := fun again done => (((Keeps.on fun d => d.plain_emitOp .pop) _).andThen
    (hbody depth)).andThen
      (Keeps.on (fun d => (d.plain_emitLoop again).trans (Draft.plain_land _ done)) _)
  have hwhole := Follows.read Draft.size fun again => (hcondition _).andThen
    (Follows.jump .jumpIfFalse (hround again))
  exact hwhole

omit hbody in
theorem balanced_forInitial : Balanced limits patience n (forInitial n expr)
    (Draft.forInitial levels) := fun depth =>
  .ite (·.check .semicolon) (Keeps.on Draft.plain_advance _)
    (.ite (·.check .kwVar)
      ((Keeps.on Draft.plain_advance _).andThen (balanced_varDeclaration hexpr depth))
      (keeps_expressionStatement hexpr _))

omit hbody in
theorem keeps_forCondition {piece : Option Nat → Counted → Counted} {f : Option Nat → Draft → Draft}
    (h : ∀ done, Follows limits patience n P Q (piece done) (f done)) :
    Follows limits patience n P Q
      (fun s => piece (forCondition n expr s).1 (forCondition n expr s).2)
      (fun d => f (d.forCondition levels).1 (d.forCondition levels).2) := by
  refine .of_at fun s _ _ => ?_
  rw [forCondition, Draft.forCondition]
  cases s.draft.check .semicolon with
  | true => exact ⟨_, _, rfl, fun _ => rfl, (Keeps.on Draft.plain_advance _).andThen (h none)⟩
  | false =>
    have htest := (hexpr .assignment).andThen
      (.on fun d => d.plain_expect .semicolon .endOfLoopCondition)
    have hjump := fun done : Nat => ((Keeps.on fun d => d.plain_emitOp .pop) _).andThen (h (some done))
    have hwhole := (htest _).andThen (Follows.jump .jumpIfFalse hjump)
    exact ⟨_, _, rfl, fun _ => rfl, hwhole⟩

omit hbody in
theorem keeps_forIncrement (condition : Nat) {piece : Nat → Counted → Counted}
    {f : Nat → Draft → Draft} (h : ∀ again, Follows limits patience n P Q (piece again) (f again)) :
    Follows limits patience n P Q
      (fun s => piece (forIncrement n expr condition s).1 (forIncrement n expr condition s).2)
      (fun d => f (d.forIncrement levels condition).1 (d.forIncrement levels condition).2) := by
  refine .of_at fun s _ _ => ?_
  rw [forIncrement, Draft.forIncrement]
  cases s.draft.check .rightParen with
  | true => exact ⟨_, _, rfl, fun _ => rfl, (Keeps.on Draft.plain_advance _).andThen (h condition)⟩
  | false =>
    have hclause := (hexpr .assignment).andThen
      (.on fun d => (d.plain_emitOp .pop).trans (Draft.plain_expect _ .rightParen .closeFor))
    have hback := fun body again => ((Keeps.on fun d =>
      (d.plain_emitLoop condition).trans (Draft.plain_patchJump _ body)) _).andThen (h again)
    have hwhole := Follows.jump .jump fun body =>
      Follows.read Draft.size fun increment => (hclause _).andThen (hback body increment)
    exact ⟨_, _, rfl, fun _ => rfl, hwhole⟩

omit hexpr hbody in
/-- The jump out of a loop, if there is one, leads behind the loop. -/
theorem keeps_leaveLoop (done : Option Nat) : Keeps limits patience n
    (fun s => match done with
      | some done => s.on n fun d => (d.patchJump done).emitOp .pop
      | none => s)
    (fun d => match done with
      | some done => (d.patchJump done).emitOp .pop
      | none => d) := by
  cases done with
  | none => exact keeps_id
  | some done => exact .on fun d => d.plain_land done

/-- **A for statement** opens a scope for its variable and closes it. -/
theorem balanced_forStatement : Balanced limits patience n (forStatement n expr body)
    (Draft.forStatement levels b) := by
  intro depth
  have hopen : ∀ d : Draft, SettledAt limits depth d.scope →
      SettledAt limits (depth + 1) (d.beginScope.expect .leftParen .openFor).scope := by
    intro d hd
    rw [Draft.scope_expect]
    exact hd.enter
  have hround := fun done again => ((hbody (depth + 1)).andThen
    (Keeps.on (fun d => d.plain_emitLoop again) _)).andThen
    ((keeps_leaveLoop done _).andThen follows_endScope)
  have hrest := Follows.read Draft.size fun condition => keeps_forCondition hexpr fun done =>
    keeps_forIncrement hexpr condition fun again => hround done again
  have hsteps : ∀ d : Draft, Draft.Steps false d (d.beginScope.expect .leftParen .openFor) :=
    fun d => d.steps_beginScope.trans (Draft.steps_expect _ .leftParen .openFor)
  have hwhole := ((Follows.on hsteps hopen).andThen
    (balanced_forInitial hexpr (depth + 1))).andThen hrest
  exact hwhole

/-! ### Declarations -/

/-- **A declaration** leaves a settled scope settled, and as deep as it was. -/
theorem balanced_declaration : Balanced limits patience n (declaration n expr body)
    (Draft.declaration levels b) := by
  intro depth
  have hinner := (Follows.ite (·.check .kwVar)
    ((Keeps.on Draft.plain_advance _).andThen (balanced_varDeclaration hexpr depth))
    (hbody depth)).andThen
    (Follows.ite Draft.panicking (Keeps.on Draft.plain_synchronize _) (keeps_id _))
  exact Follows.returning hinner _ (fun _ _ hP hQ => hQ.1.trans hP.1.symm) fun _ hQ _ => hQ.2

omit hexpr hbody in
/-- **A declaration** before the end of the source reads something if the statement passes its first
token wherever a level of nesting is left. -/
theorem advances_declaration
    (hpasses : n < limits.nesting → ∀ d : Draft, Draft.Steps true d.advance (b d)) :
    Advances limits n (declaration n expr body) (Draft.declaration levels b) := by
  intro s hs hlast hcurrent
  rcases Nat.lt_or_ge n limits.nesting with hroom | hfull
  · exact .inl (Draft.ahead_lt_of_steps (Draft.ahead_ne_nil hlast hcurrent)
      (Draft.steps_advance_declaration _ levels fun _ => hpasses hroom _))
  · have hhistory : History n (declaration n expr body s) (declaration n expr body s) := .nothing _
    exact .inr ⟨s.standing, _, hhistory.returned_mem, Nat.le_trans hfull (Nat.le_of_eq hs.symm)⟩

end Clauses

/-! ### Sequences -/

/-- What becomes of a state when up to a number of declarations have been compiled. The draft is that
of the compilation without a counter if there are as many as tokens to bound it. The sequence is given
up at the limit only if there are as many as tokens ahead. -/
structure Declares (limits : Limits) (patience n depth : Nat) (g : Draft → Draft)
    (closing : TokenKind) (bound : Nat) (s s' : Counted) : Prop where
  stands : s'.Stands limits n
  history : History n s s'
  settled : SettledAt limits depth s'.draft.scope
  draft : patience = 0 → ∀ tokens : List Token, bound = tokens.length →
    s'.draft = Draft.declarations g closing tokens s.draft
  stalls : patience = 0 → s.StallsAtLimit limits →
    s.draft.ahead.length ≤ bound ∨ s.ReachesLimit limits → s'.StallsAtLimit limits

variable {g : Draft → Draft} {closing : TokenKind} {bound : Nat} {s s' : Counted}

/-- Nothing more is compiled. -/
theorem declares_nothing (hs : s.Stands limits n) (hP : SettledAt limits depth s.draft.scope)
    (hdone : (s.draft.stalled || s.draft.check closing || s.draft.check .endOfSource) = true) :
    Declares limits patience n depth g closing bound s s where
  stands := hs
  history := .nothing s
  settled := hP
  draft _ tokens _ := by
    cases tokens <;> rw [Draft.declarations, if_pos hdone]
  stalls _ hlimit _ := hlimit

/-- The sequence is given up. -/
theorem declares_stall (hs : s.Stands limits n) (hP : SettledAt limits depth s.draft.scope)
    (hmore : ¬(s.draft.stalled || s.draft.check closing || s.draft.check .endOfSource) = true) :
    Declares limits patience n depth g closing 0 s (s.on n fun d => { d with stalled := true }) where
  stands := Stands.moment ⟨hs.nesting, hs.bound, hs.log⟩
  history := .change s _
  settled := hP
  draft _ tokens hbound := by
    rw [List.length_eq_zero_iff.mp hbound.symm, Draft.declarations, if_neg hmore]
    rfl
  stalls _ hlimit hroom := by
    refine ⟨hlimit.last, fun _ => ?_⟩
    rcases hroom with hnone | hreached
    · -- With no token ahead the end of the source is current.
      have hend : s.draft.check .endOfSource = true := by
        simp [Draft.check, Draft.current, List.eq_nil_of_length_eq_zero (Nat.le_zero.mp hnone),
          hlimit.last]
      exact absurd (by rw [hend, Bool.or_true]) hmore
    · exact hreached.mono (List.suffix_cons _ _)

/-- One declaration, and those behind it. -/
theorem Declares.next {compile : Counted → Counted} (hcompile : Balanced limits patience n compile g)
    (hadvances : Advances limits n compile g) (hs : s.Stands limits n)
    (hP : SettledAt limits depth s.draft.scope)
    (hmore : ¬(s.draft.stalled || s.draft.check closing || s.draft.check .endOfSource) = true)
    (hrest : Declares limits patience n depth g closing bound (compile s) s') :
    Declares limits patience n depth g closing (bound + 1) s s' := by
  obtain ⟨-, hhistory, -, hexact⟩ := hcompile depth s hs hP
  refine ⟨hrest.stands, hhistory.trans hrest.history, hrest.settled, fun hzero tokens hbound => ?_,
    fun hzero hlimit hroom => ?_⟩
  · obtain ⟨t, rest, rfl⟩ := List.exists_cons_of_length_eq_add_one hbound.symm
    rw [hrest.draft hzero rest (Nat.succ.inj hbound), (hexact hzero).1, Draft.declarations,
      if_neg hmore]
  · refine hrest.stalls hzero ((hexact hzero).2 hlimit) ?_
    have hcurrent : s.draft.current.kind ≠ .endOfSource := by
      simp only [Draft.check, Bool.or_eq_true, beq_iff_eq, not_or] at hmore
      exact hmore.2
    rcases hroom with hle | hreached
    · rw [(hexact hzero).1]
      exact (hadvances s hs.nesting hlimit.last hcurrent).imp_left fun hlt =>
        Nat.le_of_lt_succ (Nat.lt_of_lt_of_le hlt hle)
    · exact .inr (hreached.mono hhistory.log_suffix)

/-- **The declarations up to a bound.** -/
theorem declares_declarations {compile : Counted → Counted}
    (hcompile : Balanced limits patience n compile g) (hadvances : Advances limits n compile g)
    (hs : s.Stands limits n) (hP : SettledAt limits depth s.draft.scope) :
    Declares limits patience n depth g closing bound s (declarations n compile closing bound s) := by
  induction bound generalizing s with
  | zero =>
    rw [declarations]
    split
    · next hdone => exact declares_nothing hs hP hdone
    · next hmore => exact declares_stall hs hP hmore
  | succ bound ih =>
    rw [declarations]
    split
    · next hdone => exact declares_nothing hs hP hdone
    · next hmore =>
      obtain ⟨hfirst, -, hsettled, -⟩ := hcompile depth s hs hP
      exact .next hcompile hadvances hs hP hmore (ih hfirst hsettled)

/-- **Declarations in sequence**, as many as there are tokens ahead and some more. The sequence is
given up where the compilation without a counter does so if there are no more. It is never given up
if each declaration reads something, unless one is compiled at the limit. -/
theorem balanced_declarations {compile : Counted → Counted}
    (hcompile : Balanced limits patience n compile g) (hadvances : Advances limits n compile g)
    (closing : TokenKind) : Balanced limits patience n
      (fun s => declarations n compile closing (s.draft.ahead.length + patience) s)
      (fun d => Draft.declarations g closing d.ahead d) := by
  intro depth s hs hP
  have hdeclares : Declares limits patience n depth g closing (s.draft.ahead.length + patience) s
      (declarations n compile closing (s.draft.ahead.length + patience) s) :=
    declares_declarations hcompile hadvances hs hP
  exact ⟨hdeclares.stands, hdeclares.history, hdeclares.settled, fun hzero =>
    ⟨hdeclares.draft hzero s.draft.ahead (by rw [hzero, Nat.add_zero]), fun hlimit =>
      hdeclares.stalls hzero hlimit (.inl (Nat.le_add_right _ _))⟩⟩

/-! ### Blocks and statements -/

section Nesting

/-- A guard leaves room for a call, or the piece is skipped. -/
theorem balanced_nestedStatement {c : Nat → Counted → Counted}
    {g : Nat → (Draft → Draft) → Draft → Draft} {b : Draft → Draft}
    (h : n + 1 ≤ limits.nesting →
      Balanced limits patience (n + 1) (c (n + 1)) (g (limits.nesting - (n + 1)) b)) :
    Balanced limits patience n (nestedStatement limits.nesting n c) (fun d =>
      if limits.nesting - n ≤ 1 then d.skipStatement else g (limits.nesting - n - 1) b d) := by
  refine fun depth => .of_at fun s hs _ => ?_
  rw [nestedStatement, hs]
  by_cases hfull : limits.nesting ≤ n + 1
  · rw [if_pos hfull, if_pos (by omega)]
    exact ⟨_, _, rfl, fun _ => rfl, Keeps.on Draft.plain_skipStatement _⟩
  · rw [if_neg hfull, if_neg (by omega)]
    exact ⟨_, _, rfl, fun _ => rfl, .nested (h (by omega) depth) (by omega)⟩

theorem balanced_block {c : Nat → Counted → Counted} {b : Draft → Draft}
    (h : n + 1 ≤ limits.nesting → Balanced limits patience (n + 1) (c (n + 1))
      (Draft.declaration (limits.nesting - (n + 1)) b))
    (hadvances : Advances limits (n + 1) (c (n + 1))
      (Draft.declaration (limits.nesting - (n + 1)) b)) :
    Balanced limits patience n (block limits.nesting patience n c) (fun d =>
      if limits.nesting - n = 0 then d.skipBlock else d.block (limits.nesting - n - 1) b) := by
  refine fun depth => .of_at fun s hs _ => ?_
  rw [block, hs]
  by_cases hfull : limits.nesting ≤ n
  · rw [if_pos hfull, if_pos (by omega)]
    exact ⟨_, _, rfl, fun _ => rfl, Keeps.on Draft.plain_skipBlock _⟩
  · rw [if_neg hfull, if_neg (by omega)]
    have hinner := (balanced_declarations (h (by omega)) hadvances .rightBrace depth).andThen
      (Keeps.on (fun d => d.plain_expect .rightBrace .closeBlock) _)
    exact ⟨_, _, rfl, fun _ => rfl, .nested hinner (by omega)⟩

/-- **A statement** leaves a settled scope settled, and as deep as it was, if those inside it do. -/
theorem balanced_statementWith {expr : Nat → Precedence → Counted → Counted}
    {body : Nat → Counted → Counted} {b : Draft → Draft}
    (hexpr : ∀ m ≤ limits.nesting, ∀ level, Keeps limits patience m (expr m level)
      (Draft.expressionAt (limits.nesting - m) level))
    (hbody : n + 1 ≤ limits.nesting → Balanced limits patience (n + 1) (body (n + 1)) b)
    (hpasses : n + 1 < limits.nesting → ∀ d : Draft, Draft.Steps true d.advance (b d))
    (hn : n ≤ limits.nesting) :
    Balanced limits patience n (statementWith limits.nesting patience expr body n)
      (Draft.statementWith (limits.nesting - n) b) := by
  refine fun depth => .of_at fun s _ _ => ?_
  have hadvance : Follows limits patience n (SettledAt limits depth) (SettledAt limits depth)
      (on n .advance) .advance := Keeps.on Draft.plain_advance _
  have hlevels := hexpr n hn
  rw [statementWith, Draft.statementWith]
  simp only
  generalize s.draft.current.kind = kind
  cases kind with
  | kwPrint =>
    exact ⟨_, _, rfl, fun _ => rfl, hadvance.andThen (keeps_printStatement hlevels _)⟩
  | kwIf =>
    have hif := balanced_nestedStatement (g := Draft.ifStatement)
      (c := fun active => ifStatement active (expr active) (body active))
      fun hroom => balanced_ifStatement (hexpr _ hroom) (hbody hroom)
    exact ⟨_, _, rfl, fun _ => rfl, hadvance.andThen (hif depth)⟩
  | kwWhile =>
    have hwhile := balanced_nestedStatement (g := Draft.whileStatement)
      (c := fun active => whileStatement active (expr active) (body active))
      fun hroom => balanced_whileStatement (hexpr _ hroom) (hbody hroom)
    exact ⟨_, _, rfl, fun _ => rfl, hadvance.andThen (hwhile depth)⟩
  | kwFor =>
    have hfor := balanced_nestedStatement (g := Draft.forStatement)
      (c := fun active => forStatement active (expr active) (body active))
      fun hroom => balanced_forStatement (hexpr _ hroom) (hbody hroom)
    exact ⟨_, _, rfl, fun _ => rfl, hadvance.andThen (hfor depth)⟩
  | leftBrace =>
    have hopen : ∀ d : Draft, SettledAt limits depth d.scope →
        SettledAt limits (depth + 1) d.advance.beginScope.scope := by
      intro d hd
      rw [Draft.scope_beginScope, Draft.scope_advance]
      exact hd.enter
    have hblock := balanced_block
      (c := fun active => declaration active (expr active) (body active))
      (fun hroom => balanced_declaration (hexpr _ hroom) (hbody hroom))
      (advances_declaration hpasses)
    have hsteps : ∀ d : Draft, Draft.Steps false d d.advance.beginScope :=
      fun d => d.steps_advance.trans (Draft.steps_beginScope _)
    have hwhole := ((Follows.on hsteps hopen).andThen (hblock (depth + 1))).andThen follows_endScope
    exact ⟨_, _, rfl, fun _ => rfl, hwhole⟩
  | _ => exact ⟨_, _, rfl, fun _ => rfl, keeps_expressionStatement hlevels _⟩

/-- **Statements.** As many levels are left to a statement as the counter leaves up to the limit, and
no more fuel is needed than one for each of them and one for the call that finds none left. -/
theorem balanced_statement {fuel : Nat} (hn : n ≤ limits.nesting)
    (hfuel : limits.nesting - n < fuel) :
    Balanced limits patience n (statement limits.nesting patience fuel n)
      (Draft.statement (limits.nesting - n)) := by
  induction fuel generalizing n with
  | zero => exact absurd hfuel (Nat.not_lt_zero _)
  | succ fuel ih =>
    have hexpr : ∀ m ≤ limits.nesting, ∀ level, Keeps limits patience m
        (expressionAt limits.nesting (limits.nesting + 1) m level)
        (Draft.expressionAt (limits.nesting - m) level) := fun m hm =>
      keeps_expressionAt hm (by omega)
    intro depth
    refine Follows.returning ?_ _ (fun _ _ hP hQ => hQ.1.trans hP.1.symm) nofun
    cases hlevels : limits.nesting - n with
    | zero =>
      have hbody : n + 1 ≤ limits.nesting → Balanced limits patience (n + 1)
          (statement limits.nesting patience fuel (n + 1)) id := fun hroom => by omega
      have hwith := balanced_statementWith hexpr hbody (fun hroom => by omega) hn
      rw [hlevels] at hwith
      exact hwith depth
    | succ levels =>
      have hbody : n + 1 ≤ limits.nesting → Balanced limits patience (n + 1)
          (statement limits.nesting patience fuel (n + 1)) (Draft.statement levels) := fun hroom => by
        have hinner := ih hroom (by omega)
        rwa [show limits.nesting - (n + 1) = levels by omega] at hinner
      have hpasses : n + 1 < limits.nesting →
          ∀ d : Draft, Draft.Steps true d.advance (Draft.statement levels d) := fun hroom d =>
        d.steps_advance_statement (by omega)
      have hwith := balanced_statementWith hexpr hbody hpasses hn
      rw [hlevels] at hwith
      exact hwith depth

end Nesting

end Counted

end Lox
