import Lox.Proofs.Parsing.Statement
import Lox.Proofs.Token.Scan
import Lox.Proofs.Translation.Program

/-!
# Which sources are accepted

A source compiles without a report if and only if it is free of lexical errors, its tokens spell a
program, and the program keeps to the requirements of `Accepted`.

One half is that of `Proofs.Translation`: a program that keeps to the requirements is compiled, and
one that does not is reported. The other half is that of `Proofs.Parsing`. What is left is the start
and the end of a source, and errors of the scanner, of which a draft is free as far as the tokens
have been passed without a report.

## Main definitions

* `Draft.Passes`: the tokens passed without a report are no errors.
* `Draft.sketchOf`, `Draft.sketchAfter`: what is known of a draft at the start and the end of a
  source.

## Main results

* `Draft.meets_ofSource`: a source whose tokens spell a program.
* `compile_succeeds_iff`: exactly which sources compile without a report.
* `matches_of_compile`: what the chunk of such a source holds.
-/

namespace Lox

namespace Draft

variable {d d' : Draft} {tokens : List Token}

/-! ### Lexical errors -/

/-- As long as nothing has been reported, the tokens passed are no errors, and neither is the
current one. -/
def Passes (tokens : List Token) (d : Draft) : Prop :=
  d.Clean → d.panicking = false ∧ (∀ t ∈ d.ahead.head?, t.kind.error? = none) ∧
    ∃ passed, tokens = passed ++ d.ahead ∧ ∀ t ∈ passed, t.kind.error? = none

theorem comeTo_eq_of_clean (hpanic : d.panicking = false) (hclean : (d.comeTo tokens).Clean) :
    d.comeTo tokens = { d with ahead := tokens } ∧ ∀ t ∈ tokens.head?, t.kind.error? = none := by
  have hhead : ∀ t ∈ tokens.head?, t.kind.error? = none := by
    cases tokens with
    | nil => nofun
    | cons t rest =>
      intro u hu
      obtain rfl : t = u := Option.some.inj hu
      rw [comeTo] at hclean
      split at hclean
      · have hreport := report_clean_iff.mp (comeTo_clean hclean)
        exact absurd hreport.2 (Bool.eq_false_iff.mp hpanic)
      · cases hkind : t.kind <;> first | rfl | simp_all
  exact ⟨comeTo_eq_of_error? d tokens hhead, hhead⟩

theorem advance_eq_of_clean (hpanic : d.panicking = false) (hclean : d.advance.Clean) :
    d.advance = { d with previous := d.current, ahead := d.ahead.tail } :=
  (comeTo_eq_of_clean (d := { d with previous := d.current }) hpanic hclean).1

/-- A draft that is not panicking is not panicking later on, as long as nothing is reported. -/
theorem Steps.panicking (h : Steps true d d') (hpanic : d.panicking = false) (hclean : d'.Clean) :
    d'.panicking = false := by
  induction h with
  | refl => exact hpanic
  | tail _ hstep ih =>
    have hcalm := ih (hstep.clean hclean)
    cases hstep with
    | report t problem =>
      exact absurd (report_clean_iff.mp hclean).2 (Bool.eq_false_iff.mp hcalm)
    | advance => exact (congrArg Draft.panicking (advance_eq_of_clean hcalm hclean)).trans hcalm
    | calm => rfl
    | stall | write | patch | constant | intern | remember | scope => exact hcalm

theorem Step.passes (h : Step true d d') (hd : d.Passes tokens) : d'.Passes tokens := by
  intro hclean
  obtain ⟨hpanic, hhead, passed, htokens, hpassed⟩ := hd (h.clean hclean)
  cases h with
  | report t problem =>
    exact absurd (report_clean_iff.mp hclean).2 (Bool.eq_false_iff.mp hpanic)
  | advance =>
    obtain ⟨heq, hhead'⟩ :=
      comeTo_eq_of_clean (d := { d with previous := d.current }) hpanic hclean
    rw [Draft.advance, heq]
    refine ⟨hpanic, hhead', passed ++ d.ahead.head?.toList, ?_, ?_⟩
    · rw [htokens, List.append_assoc]
      cases d.ahead <;> rfl
    · intro t ht
      rcases List.mem_append.mp ht with hmem | hmem
      · exact hpassed t hmem
      · exact hhead t (Option.mem_toList.mp hmem)
  | calm => exact ⟨rfl, hhead, passed, htokens, hpassed⟩
  | stall | write | patch | constant | intern | remember | scope =>
    exact ⟨hpanic, hhead, passed, htokens, hpassed⟩

theorem Steps.passes (h : Steps true d d') (hd : d.Passes tokens) : d'.Passes tokens := by
  induction h with
  | refl => exact hd
  | tail _ hstep ih => exact hstep.passes ih

/-- Declarations are read up to the closing token or the end. -/
theorem check_declarations {compile : Draft → Draft} {closing : TokenKind} {bound : List Token}
    (hrunning : (declarations compile closing bound d).stalled = false) :
    ((declarations compile closing bound d).check closing ||
      (declarations compile closing bound d).check .endOfSource) = true := by
  induction bound generalizing d with
  | nil =>
    rw [declarations] at hrunning ⊢
    split
    · next hstop =>
      rw [if_pos hstop] at hrunning
      rwa [hrunning, Bool.false_or] at hstop
    · next hstop =>
      rw [if_neg hstop] at hrunning
      exact absurd hrunning (by rintro ⟨⟩)
  | cons t bound ih =>
    rw [declarations] at hrunning ⊢
    split
    · next hstop =>
      rw [if_pos hstop] at hrunning
      rwa [hrunning, Bool.false_or] at hstop
    · next hstop =>
      rw [if_neg hstop] at hrunning
      exact ih hrunning

/-! ### Whole sources -/

section Source

variable (limits : Limits) (interner : Interner) (source : String)

/-- At the start of a source the pool is empty. -/
theorem hasPool_blank (source : String) (maxLocals : Nat) (interner : Interner) :
    (blank source maxLocals interner).HasPool [] where
  constants := .nil
  strings _ _ := by simp [blank, SymbolTable.find?_empty]
  table := SymbolTable.valid_empty
  bound := Nat.zero_le _

/-- What is known of a draft at the start of a source. -/
def sketchOf (maxLocals : Nat) (tokens : List Token) : Sketch :=
  { limit := min maxLocals LocalScope.maxSlots, scopes := [], pending := none, pool := [],
    code := [], rest := tokens }

/-- What is known of a draft at the end of a program. -/
def sketchAfter (maxLocals : Nat) (program : List Decl) : Sketch :=
  { limit := min maxLocals LocalScope.maxSlots, scopes := Decl.scopesAfterAll [] program,
    pending := none, pool := Decl.programPool program,
    code := codeBytes (Decl.programCode program), rest := [] }

/-- All declarations of a source. -/
def body (d : Draft) : Draft :=
  declarations (declaration limits.nesting (statement limits.nesting)) .endOfSource d.ahead d

theorem steps_body (d : Draft) : Steps true d (body limits d) :=
  steps_declarations d
    (fun d => steps_declaration d limits.nesting fun d => steps_statement d limits.nesting) _ _

variable {limits interner source}

theorem passes_start : (start source limits.locals interner).Passes (scan source).tokens := by
  intro hclean
  obtain ⟨heq, hhead⟩ :=
    comeTo_eq_of_clean (d := blank source limits.locals interner) rfl hclean
  refine ⟨?_, ?_, [], ?_, nofun⟩
  · exact congrArg panicking heq
  · rwa [show (start source limits.locals interner).ahead = (scan source).tokens from
      congrArg ahead heq]
  · exact (congrArg ahead heq).symm

theorem start_eq_of_error? (htokens : ∀ t ∈ (scan source).tokens, t.kind.error? = none)
    {maxLocals : Nat} : start source maxLocals interner =
      { blank source maxLocals interner with ahead := (scan source).tokens } :=
  comeTo_eq_of_error? (blank source maxLocals interner) _ fun t ht =>
    htokens t (List.mem_of_mem_head? ht)

theorem matches_start (htokens : ∀ t ∈ (scan source).tokens, t.kind.error? = none) :
    (start source limits.locals interner).Matches (sketchOf limits.locals (scan source).tokens) := by
  rw [start_eq_of_error? htokens]
  exact {
    proper := ⟨rfl, fun t ht => isProper_of_mem_scan ht (htokens t ht), nofun⟩
    clean := rfl
    running := rfl
    scope := rfl
    pool := (hasPool_blank source limits.locals interner).of_eq rfl rfl rfl
    code := rfl
    ahead := rfl }

theorem steps_ofSource : Steps true (body limits (start source limits.locals interner))
    (ofSource limits interner source) := (steps_advance _).trans (steps_emitOp _ .halt)

/-- Without a report the declarations are read up to the end of the source. -/
theorem ahead_body_eq_nil (hclean : (ofSource limits interner source).Clean)
    (hrunning : (ofSource limits interner source).stalled = false) :
    (body limits (start source limits.locals interner)).ahead = [] := by
  obtain ⟨-, -, passed, htokens, -⟩ :=
    (steps_body limits _).passes passes_start (steps_ofSource.clean hclean)
  have hcheck : (body limits (start source limits.locals interner)).check .endOfSource = true := by
    rw [← Bool.or_self (Draft.check _ _)]
    exact check_declarations (steps_ofSource.running hrunning)
  have hkind := kind_of_check hcheck
  rw [current] at hkind
  cases hahead : (body limits (start source limits.locals interner)).ahead with
  | nil => rfl
  | cons t rest =>
    rw [hahead] at hkind htokens
    exact absurd hkind (kind_ne_of_mem_scan (htokens ▸ List.mem_append_right _ List.mem_cons_self))

/-- A source that compiles without a report has no lexical errors. -/
theorem error?_of_clean (hclean : (ofSource limits interner source).Clean)
    (hrunning : (ofSource limits interner source).stalled = false) :
    ∀ t ∈ (scan source).tokens, t.kind.error? = none := by
  obtain ⟨-, -, passed, htokens, hpassed⟩ :=
    (steps_body limits _).passes passes_start (steps_ofSource.clean hclean)
  rw [htokens, ahead_body_eq_nil hclean hrunning, List.append_nil]
  exact hpassed

/-- **A source whose tokens spell a program** compiles to the code of the program, if the program
keeps to the requirements. -/
theorem meets_ofSource {program : List Decl}
    (htokens : ∀ t ∈ (scan source).tokens, t.kind.error? = none)
    (hprogram : Decl.DerivesAll program (scan source).tokens) :
    (ofSource limits interner source).Meets (Accepted limits program)
      (·.Matches (sketchAfter limits.locals program)) := by
  have hbody : ∀ d, Steps true d (statement limits.nesting d) := fun d =>
    steps_statement d limits.nesting
  have hstart : (start source limits.locals interner).Matches _ := matches_start htokens
  have hdecls := hstart.declarations hbody (compiles_statement limits.nesting) (.inr rfl) rfl hprogram
    (List.append_nil _).symm rfl (Nat.le_of_eq (congrArg List.length hstart.ahead.symm))
  refine Meets.of_iff ?_ (hdecls.map (fun d => (steps_advance d).trans (steps_emitOp _ .halt))
    fun _ hmatches => ?_)
  · rw [Decl.FitsAll, fits_iff, accepted_iff]
    show _ ∧ _ ∧ (Pool.addAll [] _).length ≤ _ ∧ _ ↔ _
    rw [Pool.length_addAll_nil, and_comm, and_assoc, and_assoc]
    exact Iff.rfl
  · have hhalt := hmatches.pass.emitOp .halt
    have hcode : (sketchAfter limits.locals program).code =
        (Decl.afterAll (sketchOf limits.locals (scan source).tokens) program []).code ++
          [OpCode.halt.toByte] := by
      simp only [sketchAfter, Decl.programCode, codeBytes_append]
      rfl
    rw [← hcode] at hhalt
    exact hhalt

/-- A source that compiles without a report spells a program. -/
theorem exists_program (hclean : (ofSource limits interner source).Clean)
    (hrunning : (ofSource limits interner source).stalled = false) :
    ∃ program, Decl.DerivesAll program (scan source).tokens := by
  have htokens := error?_of_clean hclean hrunning
  have hstart : (start source limits.locals interner).Matches _ := matches_start htokens
  obtain ⟨program, ts, hts, hprogram⟩ := hstart.proper.declarations
    (fun d => steps_statement d limits.nesting) (parses_statement limits.nesting)
    (steps_ofSource.clean hclean) (steps_ofSource.running hrunning)
  have hall : (scan source).tokens = ts ++ [] :=
    hstart.ahead.symm.trans (hts.trans (congrArg (ts ++ ·) (ahead_body_eq_nil hclean hrunning)))
  rw [List.append_nil] at hall
  exact ⟨program, hall ▸ hprogram⟩

end Source

end Draft

/-! ### Compilations -/

section Compilation

variable {limits : Limits} {interner : Interner} {source : String} {c : Compilation}

/-- A compilation is a success if the draft of the source has reported nothing. -/
theorem compile_eq_some_iff : compile limits interner source = some c ∧ c.isSuccess = true ↔
    let d := Draft.ofSource limits interner source
    d.stalled = false ∧ d.Clean ∧ c = ⟨d.chunk, d.diagnostics, d.interner⟩ := by
  rw [compile]
  constructor
  · rintro ⟨hcompile, hsuccess⟩
    by_cases hstalled : (Draft.ofSource limits interner source).stalled = true
    · rw [if_pos hstalled] at hcompile
      exact absurd hcompile nofun
    · rw [if_neg hstalled] at hcompile
      obtain rfl := Option.some.inj hcompile
      exact ⟨Bool.eq_false_iff.mpr hstalled, Array.isEmpty_iff.mp hsuccess, rfl⟩
  · rintro ⟨hstalled, hclean, rfl⟩
    exact ⟨if_neg (Bool.eq_false_iff.mp hstalled), Array.isEmpty_iff.mpr hclean⟩

/-- **Exact acceptance.** A source compiles without a report if and only if it has no lexical
errors and its tokens spell a program that keeps to the requirements. -/
theorem compile_succeeds_iff (limits : Limits) (interner : Interner) (source : String) :
    (∃ c, compile limits interner source = some c ∧ c.isSuccess = true) ↔
      (∀ t ∈ (scan source).tokens, t.kind.error? = none) ∧
        ∃ program, Decl.DerivesAll program (scan source).tokens ∧ Accepted limits program := by
  constructor
  · rintro ⟨c, hcompile, hsuccess⟩
    obtain ⟨hrunning, hclean, -⟩ := compile_eq_some_iff.mp ⟨hcompile, hsuccess⟩
    have htokens := Draft.error?_of_clean hclean hrunning
    obtain ⟨program, hprogram⟩ := Draft.exists_program hclean hrunning
    exact ⟨htokens, program, hprogram, ((Draft.meets_ofSource htokens hprogram).of_clean hclean).1⟩
  · rintro ⟨htokens, program, hprogram, haccepted⟩
    have hmatches : (Draft.ofSource limits interner source).Matches _ :=
      (Draft.meets_ofSource htokens hprogram).of_condition haccepted
    exact ⟨_, compile_eq_some_iff.mpr ⟨hmatches.running, hmatches.clean, rfl⟩⟩

/-- A source that compiles without a report spells a program. -/
theorem exists_program_of_compile (h : compile limits interner source = some c)
    (hsuccess : c.isSuccess = true) :
    ∃ program, Decl.DerivesAll program (scan source).tokens := by
  obtain ⟨hrunning, hclean, -⟩ := compile_eq_some_iff.mp ⟨h, hsuccess⟩
  exact Draft.exists_program hclean hrunning

/-- **The code of a source** that compiles without a report is that of any program it spells, and
its constants are those of the program. -/
theorem matches_of_compile (h : compile limits interner source = some c)
    (hsuccess : c.isSuccess = true) {program : List Decl}
    (hprogram : Decl.DerivesAll program (scan source).tokens) :
    Accepted limits program ∧ c.chunk.code.toList = codeBytes (Decl.programCode program) ∧
      List.Forall₂ (Value.Denotes c.interner) c.chunk.constants.toList
        (Decl.programPool program) := by
  obtain ⟨hrunning, hclean, rfl⟩ := compile_eq_some_iff.mp ⟨h, hsuccess⟩
  obtain ⟨haccepted, hmatches⟩ :=
    (Draft.meets_ofSource (Draft.error?_of_clean hclean hrunning) hprogram).of_clean hclean
  exact ⟨haccepted, hmatches.code, hmatches.pool.constants⟩

/-- Every text keeps its symbol. -/
theorem grows_of_compile (h : compile limits interner source = some c) :
    interner.Grows c.interner := by
  have hstart : (Draft.start source limits.locals interner).interner = interner := by
    obtain ⟨ahead, panicking, diagnostics, heq, -⟩ :=
      Draft.exists_start_eq source limits.locals interner
    rw [heq, Draft.blank]
  have hsteps : Draft.Steps true (Draft.start source limits.locals interner)
      (Draft.ofSource limits interner source) :=
    (Draft.steps_body limits _).trans Draft.steps_ofSource
  have hgrows := hsteps.grows
  rw [hstart] at hgrows
  rw [compile] at h
  by_cases hstalled : (Draft.ofSource limits interner source).stalled = true
  · rw [if_pos hstalled] at h
    exact absurd h nofun
  · rw [if_neg hstalled] at h
    obtain rfl := Option.some.inj h
    exact hgrows

end Compilation

end Lox
