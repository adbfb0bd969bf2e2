import Lox.Proofs.Acceptance
import Lox.Proofs.Counted
import Mathlib.Logic.Function.Iterate

/-!
# Progress

Declarations are compiled one after the other until their closing token is current, so compiling
ends if every one of them reads something. With a level of nesting left a declaration passes its
first token whatever that is. With none left, inside a block at the limit, an expression is
reported without being read, and recovery may end where it starts: at a footing, or after the
semicolon that was read before. There the same report is made over and over.

So what counts is how deep declarations are nested, not how many tokens could nest them: a source of
any length compiles in the end if none of its declarations lies at the limit.

## Main definitions

* `Stuck`: a declaration without a level of nesting left would read nothing here.
* `TokenKind.opensLevel`: whether what a token starts uses up a level of nesting.

## Main results

* `ahead_lt_iff`: a declaration reads something unless it is stuck.
* `Stuck.iterate`: once stuck, declarations read nothing for ever and report one problem each.
* `compile_isSome`: compiling ends if fewer tokens open a level than there are levels.
* `compile_isSome_of_below`: compiling ends if no declaration is compiled at the limit.
* `progress_unless_stuck`: all of this together.
-/

namespace Lox

/-- Whether what a token of this kind starts uses up a level of nesting for statements. -/
def TokenKind.opensLevel : TokenKind → Bool
  | kwIf | kwWhile | kwFor | leftBrace => true
  | _ => false

namespace Draft

/-- Without a level of nesting left, a declaration here starts with an expression, which cannot be
read, and recovery ends at once. -/
def Stuck (d : Draft) : Prop :=
  d.current.kind ∉ [.kwVar, .kwPrint, .kwIf, .kwWhile, .kwFor, .leftBrace, .semicolon] ∧
    (d.previous.kind = .semicolon ∨ isFooting d.current.kind = true)

instance (d : Draft) : Decidable d.Stuck := inferInstanceAs (Decidable (_ ∧ _))

variable {d : Draft}

/-! ### Reading -/

/-- A declaration reads something if it passes its first token at once. -/
theorem ahead_declaration_lt {levels : Nat} (hahead : d.ahead ≠ [])
    (h : levels ≠ 0 ∨ d.current.kind ∈ [.kwVar, .kwPrint, .kwIf, .kwWhile, .kwFor, .leftBrace]) :
    (declaration levels (statement levels) d).ahead.length < d.ahead.length := by
  refine ahead_lt_of_steps hahead (steps_advance_declaration d levels fun hvar => ?_)
  have hvar : d.current.kind ≠ .kwVar := by simpa [check] using hvar
  cases levels with
  | zero => exact steps_advance_statementWith d 0 (fun _ => .refl) (.inr (by simpa [hvar] using h))
  | succ levels => exact steps_advance_statement d (Nat.succ_ne_zero levels)

/-! ### No level left -/

/-- With no level left, a declaration that starts with an expression reports that, unless the draft
is panicking, and goes on to recovery without having read anything. -/
theorem exists_declaration_zero
    (h : d.current.kind ∉ [.kwVar, .kwPrint, .kwIf, .kwWhile, .kwFor, .leftBrace, .semicolon]) :
    ∃ (diagnostics : Array Diagnostic) (chunk : Chunk),
      declaration 0 (statement 0) d =
        seekFooting d.ahead { d with panicking := false, diagnostics, chunk } ∧
      diagnostics.size = d.diagnostics.size + if d.panicking then 0 else 1 := by
  simp only [List.mem_cons, not_or] at h
  have hvar : d.check .kwVar = false := by simpa [check] using h.1
  have hsemicolon : d.check .semicolon = false := by simpa [check] using h.2.2.2.2.2.2.1
  have hstatement : statement 0 d = d.expressionStatement 0 :=
    statementWith_eq_expressionStatement d 0 (by simp [h])
  obtain ⟨diagnostics, heq, hsize⟩ := exists_report_eq d d.current .nestingTooDeep
  have hexpression : d.expression 0 = { d with panicking := true, diagnostics } := heq
  -- the missing semicolon is not reported, since the expression was
  have hexpect : ({ d with panicking := true, diagnostics } : Draft).expect .semicolon
      .endOfExpression = { d with panicking := true, diagnostics } := by
    rw [expect]
    exact if_neg (Bool.eq_false_iff.mp hsemicolon)
  refine ⟨diagnostics, d.chunk.write OpCode.pop.toByte d.previous.line, ?_, hsize⟩
  rw [declaration, hvar, if_neg Bool.false_ne_true, hstatement, expressionStatement, hexpression,
    hexpect]
  exact if_pos rfl

/-- Anywhere else recovery passes a token. -/
theorem steps_advance_seekFooting {bound : List Token} (hbound : bound ≠ [])
    (hcurrent : d.current.kind ≠ .endOfSource)
    (h : ¬(d.previous.kind = .semicolon ∨ isFooting d.current.kind = true)) :
    Steps true d.advance (seekFooting bound d) := by
  obtain ⟨t, bound, rfl⟩ := List.exists_cons_of_ne_nil hbound
  rw [seekFooting_cons t bound hcurrent h]
  exact steps_seekFooting _ bound

/-- Where a declaration is stuck it changes nothing but the report and what is written. -/
theorem Stuck.exists_declaration (h : d.Stuck) :
    ∃ (diagnostics : Array Diagnostic) (chunk : Chunk),
      declaration 0 (statement 0) d = { d with panicking := false, diagnostics, chunk } ∧
      diagnostics.size = d.diagnostics.size + if d.panicking then 0 else 1 := by
  obtain ⟨diagnostics, chunk, heq, hsize⟩ := exists_declaration_zero h.1
  exact ⟨diagnostics, chunk, heq.trans (seekFooting_eq_self _ h.2), hsize⟩

/-- **Once stuck, always stuck.** However many declarations follow, nothing is read, and each of
them reports one problem. -/
theorem Stuck.iterate (h : d.Stuck) (hpanicking : d.panicking = false) (n : Nat) :
    let d' := (declaration 0 (statement 0))^[n] d
    d'.ahead = d.ahead ∧ d'.diagnostics.size = d.diagnostics.size + n := by
  induction n generalizing d with
  | zero => exact ⟨rfl, rfl⟩
  | succ n ih =>
    obtain ⟨diagnostics, chunk, heq, hsize⟩ := h.exists_declaration
    have hnext := ih (d := { d with panicking := false, diagnostics, chunk }) h rfl
    simp only [Function.iterate_succ_apply, heq] at hnext ⊢
    refine ⟨hnext.1, hnext.2.trans ?_⟩
    rw [hsize, hpanicking]
    simp only [Bool.false_eq_true, if_false]
    omega

/-- With no level left, a semicolon is read though the expression before it is missing. -/
theorem ahead_declaration_zero_lt (hahead : d.ahead ≠ []) (h : d.current.kind = .semicolon) :
    (declaration 0 (statement 0) d).ahead.length < d.ahead.length := by
  obtain ⟨diagnostics, heq, -⟩ := exists_report_eq d d.current .nestingTooDeep
  have hstatement : statement 0 d =
      ({ d with panicking := true, diagnostics } : Draft).advance.emitOp .pop := by
    have hexpression : d.expression 0 = { d with panicking := true, diagnostics } := heq
    have hcheck : ({ d with panicking := true, diagnostics } : Draft).check .semicolon = true := by
      simpa [check, current] using h
    rw [statement, statementWith_eq_expressionStatement d 0 (by simp [h]), expressionStatement,
      hexpression, expect, if_pos hcheck]
  have hvar : d.check .kwVar = false := by simp [check, h]
  rw [declaration, hvar, if_neg Bool.false_ne_true, hstatement]
  exact ahead_lt_of_steps (d := { d with panicking := true, diagnostics }) hahead
    ((steps_emitOp _ _).trans (steps_recovery _))

/-- **Progress.** A declaration reads something unless no level of nesting is left and it is
stuck. -/
theorem ahead_lt_iff (levels : Nat) (hlast : d.last.kind = .endOfSource)
    (hcurrent : d.current.kind ≠ .endOfSource) :
    (declaration levels (statement levels) d).ahead.length < d.ahead.length ↔
      ¬(levels = 0 ∧ d.Stuck) := by
  have hahead := ahead_ne_nil hlast hcurrent
  refine ⟨?_, fun hfree => ?_⟩
  · rintro hlt ⟨rfl, hstuck⟩
    obtain ⟨diagnostics, chunk, heq, -⟩ := hstuck.exists_declaration
    rw [heq] at hlt
    exact Nat.lt_irrefl _ hlt
  · by_cases hfirst : levels ≠ 0 ∨
        d.current.kind ∈ [.kwVar, .kwPrint, .kwIf, .kwWhile, .kwFor, .leftBrace]
    · exact ahead_declaration_lt hahead hfirst
    · simp only [not_or, not_not] at hfirst
      obtain ⟨rfl, hkind⟩ := hfirst
      by_cases hsemicolon : d.current.kind = .semicolon
      · exact ahead_declaration_zero_lt hahead hsemicolon
      · obtain ⟨diagnostics, chunk, heq, -⟩ := exists_declaration_zero (d := d) (by simp_all)
        have hseek : ¬(d.previous.kind = .semicolon ∨ isFooting d.current.kind = true) :=
          fun hseek => hfree ⟨rfl, by simp_all, hseek⟩
        rw [heq]
        exact ahead_lt_of_steps (d := { d with panicking := false, diagnostics, chunk }) hahead
          (steps_advance_seekFooting hahead hcurrent hseek)

/-! ### Room -/

/-- Nothing has stalled, and fewer of the tokens ahead open a level than there are levels. -/
structure Roomy (levels : Nat) (d : Draft) : Prop where
  running : d.stalled = false
  last : d.last.kind = .endOfSource
  openers : d.ahead.countP (·.kind.opensLevel) < levels

variable {levels : Nat}

theorem Roomy.of_steps {d' : Draft} (h : Roomy levels d) (hsteps : Steps true d d')
    (hrunning : d'.stalled = false) : Roomy levels d' :=
  ⟨hrunning, hsteps.tokens.2 ▸ h.last,
    Nat.lt_of_le_of_lt (hsteps.tokens.1.sublist.countP_le) h.openers⟩

theorem Roomy.steps {d' : Draft} (h : Roomy levels d) (hsteps : Steps false d d') :
    Roomy levels d' :=
  h.of_steps hsteps.weaken (hsteps.stalled_eq.trans h.running)

theorem Roomy.mono {levels' : Nat} (h : Roomy levels d) (hle : levels ≤ levels') :
    Roomy levels' d := ⟨h.running, h.last, Nat.lt_of_lt_of_le h.openers hle⟩

/-- Passing a token that opens a level leaves room on the next level. -/
theorem Roomy.advance (h : Roomy (levels + 1) d) (hkind : d.current.kind.opensLevel = true) :
    Roomy levels d.advance := by
  obtain ⟨rest, panicking, diagnostics, heq, hrest⟩ := exists_advance_eq d
  have hahead : d.ahead ≠ [] :=
    ahead_ne_nil h.last fun hend => absurd (hend ▸ hkind) (by decide)
  obtain ⟨t, tokens, hcons⟩ := List.exists_cons_of_ne_nil hahead
  have hopener : t.kind.opensLevel = true := by simpa [current, hcons] using hkind
  have hopeners := h.openers
  rw [hcons, List.countP_cons_of_pos (p := fun t : Token => t.kind.opensLevel) hopener] at hopeners
  rw [hcons, List.tail_cons] at hrest
  rw [heq]
  exact ⟨h.running, h.last,
    Nat.lt_of_le_of_lt hrest.sublist.countP_le (Nat.lt_of_succ_lt_succ hopeners)⟩

section Bodies

variable {body : Draft → Draft} (hbody : ∀ d, Roomy levels d → Roomy levels (body d))

include hbody

theorem Roomy.ifStatement (inner : Nat) (h : Roomy levels d) :
    Roomy levels (d.ifStatement inner body) := by
  have hthen := hbody _ (h.steps (steps_condition d inner .openIf))
  rw [Draft.ifStatement]
  simp only
  refine Roomy.steps ?_ (steps_patchJump _ _)
  have helse := fun other => hthen.steps (((steps_emitJump _ .jump).trans
    (steps_patchJump _ other)).trans (steps_emitOp _ .pop))
  split
  · exact hbody _ ((helse _).steps (steps_advance _))
  · exact helse _

theorem Roomy.whileStatement (inner : Nat) (h : Roomy levels d) :
    Roomy levels (d.whileStatement inner body) :=
  (hbody _ (h.steps (steps_condition d inner .openWhile))).steps
    (((steps_emitLoop _ _).trans (steps_patchJump _ _)).trans (steps_emitOp _ _))

theorem Roomy.forStatement (inner : Nat) (h : Roomy levels d) :
    Roomy levels (d.forStatement inner body) := by
  rw [Draft.forStatement]
  simp only
  refine Roomy.steps ?_ (steps_endScope _)
  have hclauses := fun condition => hbody _ (h.steps (((((steps_beginScope d).trans
    (steps_expect _ .leftParen .openFor)).trans (steps_forInitial _ inner)).trans
    (steps_forCondition _ inner)).trans (steps_forIncrement _ inner condition)))
  split
  · exact (hclauses _).steps (((steps_emitLoop _ _).trans (steps_patchJump _ _)).trans
      (steps_emitOp _ _))
  · exact (hclauses _).steps (steps_emitLoop _ _)

theorem Roomy.declaration (inner : Nat) (h : Roomy levels d) :
    Roomy levels (d.declaration inner body) := by
  refine Roomy.steps ?_ (steps_recovery _)
  split
  · exact h.steps ((steps_advance d).trans (steps_varDeclaration _ inner))
  · exact hbody d h

end Bodies

/-- While there is room every declaration reads something, so a sequence of them ends. -/
theorem Roomy.declarations (hstatement : ∀ d, Roomy levels d → Roomy levels (statement levels d))
    (closing : TokenKind) {bound : List Token} (h : Roomy levels d)
    (hbound : d.ahead.length ≤ bound.length) :
    Roomy levels
      (declarations (Draft.declaration levels (Draft.statement levels)) closing bound d) := by
  induction bound generalizing d with
  | nil =>
    have hcheck : d.check .endOfSource = true := by
      simp [check, current, List.eq_nil_of_length_eq_zero (Nat.le_zero.mp hbound), h.last]
    rw [Draft.declarations, hcheck, Bool.or_true, if_pos rfl]
    exact h
  | cons t bound ih =>
    rw [Draft.declarations]
    split
    · exact h
    · next hstop =>
      have hcurrent : d.current.kind ≠ .endOfSource := by simp_all [check]
      have hlt := ahead_declaration_lt (ahead_ne_nil h.last hcurrent)
        (.inl (Nat.ne_zero_of_lt h.openers))
      refine ih (h.declaration hstatement levels) ?_
      rw [List.length_cons] at hbound
      exact Nat.le_of_lt_succ (Nat.lt_of_lt_of_le hlt hbound)

/-- **A statement with room for it** leaves as much. -/
theorem Roomy.statement (h : Roomy levels d) : Roomy levels (statement levels d) := by
  induction levels generalizing d with
  | zero => exact absurd h.openers (Nat.not_lt_zero _)
  | succ levels ih =>
    have hnested : ∀ compile : Nat → (Draft → Draft) → Draft → Draft,
        (∀ d, Roomy levels d → Roomy levels (compile levels (Draft.statement levels) d)) →
        ∀ d, Roomy levels d → Roomy (levels + 1)
          (if levels + 1 ≤ 1 then d.skipStatement
            else compile (levels + 1 - 1) (Draft.statement levels) d) := by
      intro compile hcompile d hd
      refine Roomy.mono ?_ (Nat.le_succ levels)
      split
      · exact hd.steps (steps_skipStatement d)
      · exact hcompile d hd
    rw [Draft.statement, statementWith]
    simp only
    split
    · exact h.steps ((steps_advance d).trans (steps_printStatement _ _))
    · next hkind =>
      exact hnested Draft.ifStatement (fun _ => Roomy.ifStatement (fun _ => ih) levels) _
        (h.advance (by rw [hkind]; rfl))
    · next hkind =>
      exact hnested Draft.whileStatement (fun _ => Roomy.whileStatement (fun _ => ih) levels) _
        (h.advance (by rw [hkind]; rfl))
    · next hkind =>
      exact hnested Draft.forStatement (fun _ => Roomy.forStatement (fun _ => ih) levels) _
        (h.advance (by rw [hkind]; rfl))
    · next hkind =>
      have hinside := (h.advance (by rw [hkind]; rfl)).steps (steps_beginScope _)
      refine Roomy.mono (Roomy.steps ?_ (steps_endScope _)) (Nat.le_succ levels)
      rw [if_neg (Nat.succ_ne_zero levels)]
      exact (hinside.declarations (fun _ => ih) .rightBrace (Nat.le_refl _)).steps
        (steps_expect _ _ _)
    · exact h.steps (steps_expressionStatement d _)

end Draft

/-- **Compiling ends** if fewer tokens of the source open a level than levels may be nested. -/
theorem compile_isSome {limits : Limits} {source : String} (interner : Interner)
    (h : (scan source).tokens.countP (·.kind.opensLevel) < limits.nesting) :
    (compile limits interner source).isSome := by
  obtain ⟨rest, panicking, diagnostics, hstart, hrest⟩ :=
    Draft.exists_start_eq source limits.locals interner
  have hroomy : Draft.Roomy limits.nesting (Draft.start source limits.locals interner) := by
    rw [hstart]
    exact ⟨rfl, rfl, Nat.lt_of_le_of_lt hrest.sublist.countP_le h⟩
  have hend : Draft.Roomy limits.nesting (Draft.ofSource limits interner source) :=
    (hroomy.declarations (fun _ => Draft.Roomy.statement) .endOfSource (Nat.le_refl _)).steps
      ((Draft.steps_advance _).trans (Draft.steps_emitOp _ .halt))
  rw [compile, hend.running, if_neg Bool.false_ne_true]
  rfl

/-- **Compiling ends** if the nesting is below the limit wherever a declaration is compiled. -/
theorem compile_isSome_of_below {limits : Limits} {source : String} (interner : Interner)
    (h : ∀ entry exit, .returned .declaration entry exit ∈
      (Counted.ofSource limits interner source 0).log → entry.nesting < limits.nesting) :
    (compile limits interner source).isSome := by
  have hstalls := Counted.stallsAtLimit_ofSource limits interner source
  have hrunning : (Draft.ofSource limits interner source).stalled = false := by
    rw [← Counted.draft_ofSource, Bool.eq_false_iff]
    intro hstalled
    obtain ⟨entry, exit, hmem, hlimit⟩ := hstalls.reaches hstalled
    exact absurd (h entry exit hmem) (Nat.not_lt.mpr hlimit)
  rw [compile, hrunning, if_neg Bool.false_ne_true]
  rfl

/-- **Progress and its limit.** Before the end of the source a declaration reads something, unless
it is stuck with no level of nesting left. One that is stuck stays so, and every further attempt
reports one problem more. A source compiles in the end if fewer of its tokens open a level than
levels may be nested, and also, however many open one, if no declaration is compiled with the nesting
at the limit. -/
theorem progress_unless_stuck (limits : Limits) (interner : Interner) (source : String) :
    (∀ (levels : Nat) (d : Draft), d.last.kind = .endOfSource → d.current.kind ≠ .endOfSource →
      ((d.declaration levels (Draft.statement levels)).ahead.length < d.ahead.length ↔
        ¬(levels = 0 ∧ d.Stuck))) ∧
    (∀ d : Draft, d.Stuck → d.panicking = false → ∀ n : Nat,
      let d' := (Draft.declaration 0 (Draft.statement 0))^[n] d
      d'.ahead = d.ahead ∧ d'.diagnostics.size = d.diagnostics.size + n) ∧
    ((scan source).tokens.countP (·.kind.opensLevel) < limits.nesting →
      (compile limits interner source).isSome) ∧
    ((∀ entry exit, .returned .declaration entry exit ∈
        (Counted.ofSource limits interner source 0).log → entry.nesting < limits.nesting) →
      (compile limits interner source).isSome) :=
  ⟨fun levels _ hlast hcurrent => Draft.ahead_lt_iff levels hlast hcurrent,
    fun _ hstuck hpanicking n => hstuck.iterate hpanicking n, compile_isSome interner,
    compile_isSome_of_below interner⟩

/-- A block with two statements compiles if there is a level for what is inside it, and any number of
blocks do, one after the other. -/
theorem progress_of_block_below_limit :
    (compile { nesting := 2 } .empty "\x7b1;2;\x7d").isSome ∧
      (compile { nesting := 2 } .empty "\x7b1;\x7d\x7b2;\x7d\x7b3;\x7d").isSome := by
  refine ⟨(progress_unless_stuck { nesting := 2 } .empty "\x7b1;2;\x7d").2.2.1 (by decide +kernel),
    (progress_unless_stuck { nesting := 2 } .empty
      "\x7b1;\x7d\x7b2;\x7d\x7b3;\x7d").2.2.2 fun entry exit hmem => ?_⟩
  have hbelow : ((Counted.ofSource { nesting := 2 } .empty
      "\x7b1;\x7d\x7b2;\x7d\x7b3;\x7d" 0).log.all fun event => match event with
        | .returned .declaration entry _ => decide (entry.nesting < 2)
        | _ => true) = true := by decide +kernel
  exact of_decide_eq_true (List.all_eq_true.mp hbelow _ hmem)

/-- Without that level the second statement is stuck, and compiling never ends. -/
theorem compile_block_at_limit : compile { nesting := 1 } .empty "\x7b1;2;\x7d" = none := by
  decide +kernel

end Lox
