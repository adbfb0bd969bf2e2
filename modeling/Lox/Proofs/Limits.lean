import Lox.Proofs.Abreast.Statement
import Lox.Proofs.Acceptance
import Lox.Proofs.Draft.Settled

/-!
# What the limits decide

The limits decide which sources are accepted and nothing else. A source that keeps to some limits
keeps to all that are wider, since the requirements on its program bound what it has by the limits.
And no limit is ever looked at but to be compared: as long as neither of two compilations has found
a limit exceeded, they are the same but for the limits.

## Main definitions

* `Limits.Within`: limits that are no wider than others.
* `Draft.Roomier`: two drafts with nothing but the limit on locals between them.

## Main results

* `Accepted.mono`: wider limits accept what narrower ones do.
* `Draft.abreast_roomier`: compiling keeps drafts the same but for the limit.
* `World.compile_eq_of_limits_le`: what compiles without a report compiles to the same under wider
  limits.
-/

namespace Lox

/-- No limit is wider than the other. -/
structure Limits.Within (limits limits' : Limits) : Prop where
  locals : limits.locals ≤ limits'.locals
  nesting : limits.nesting ≤ limits'.nesting

/-! ### The requirements on programs -/

section Requirements

variable {limit limit' : Nat}

theorem Scopes.CanDeclare.mono (hle : limit ≤ limit') {scopes : Scopes} {name : String}
    {value : Option Expr} (h : scopes.CanDeclare limit name value) :
    scopes.CanDeclare limit' name value := by
  intro hopen
  obtain ⟨hfirst, hvalue, hroom⟩ := h hopen
  exact ⟨hfirst, hvalue, Nat.lt_of_lt_of_le hroom hle⟩

theorem ForInit.WellScoped.mono (hle : limit ≤ limit') {scopes : Scopes} {first : ForInit}
    (h : first.WellScoped limit scopes) : first.WellScoped limit' scopes := by
  cases first with
  | var name value => exact Scopes.CanDeclare.mono hle h
  | none | expression e => trivial

mutual

theorem Stmt.WellScoped.mono (hle : limit ≤ limit') (s : Stmt) {scopes : Scopes}
    (h : s.WellScoped limit scopes) : s.WellScoped limit' scopes := by
  match s with
  | .expression _ | .print _ => trivial
  | .block ds => exact Decl.WellScopedAll.mono hle ds h
  | .ifThen _ s | .whileLoop _ s => exact Stmt.WellScoped.mono hle s h
  | .ifElse _ s s' => exact ⟨Stmt.WellScoped.mono hle s h.1, Stmt.WellScoped.mono hle s' h.2⟩
  | .forLoop first _ _ s => exact ⟨ForInit.WellScoped.mono hle h.1, Stmt.WellScoped.mono hle s h.2⟩

theorem Decl.WellScoped.mono (hle : limit ≤ limit') (d : Decl) {scopes : Scopes}
    (h : d.WellScoped limit scopes) : d.WellScoped limit' scopes := by
  match d with
  | .var name value => exact Scopes.CanDeclare.mono hle h
  | .statement s => exact Stmt.WellScoped.mono hle s h

theorem Decl.WellScopedAll.mono (hle : limit ≤ limit') (ds : List Decl) {scopes : Scopes}
    (h : Decl.WellScopedAll limit scopes ds) : Decl.WellScopedAll limit' scopes ds := by
  match ds with
  | [] => trivial
  | d :: ds => exact ⟨Decl.WellScoped.mono hle d h.1, Decl.WellScopedAll.mono hle ds h.2⟩

end

end Requirements

/-- **Wider limits accept** what narrower ones do. -/
theorem Accepted.mono {limits limits' : Limits} (hle : limits.Within limits') {program : List Decl}
    (h : Accepted limits program) : Accepted limits' program where
  scopes := Decl.WellScopedAll.mono (min_le_min_right _ hle.locals) program h.scopes
  constants := h.constants
  jumps := h.jumps
  nesting := h.nesting.trans hle.nesting

/-! ### Drafts with room for more locals -/

namespace Draft

/-- The draft with another limit on locals. -/
def withLimit (d : Draft) (limit : Nat) : Draft := { d with scope := { d.scope with limit } }

/-- Two drafts of a faultless compilation, of which the second has room for at least as many
locals. -/
structure Roomier (d d' : Draft) : Prop where
  calm : d.panicking = false
  running : d.stalled = false
  eq : ∃ limit, d.scope.limit ≤ limit ∧ d' = d.withLimit limit

section WithLimit

variable (d : Draft) (limit : Nat)

theorem report_withLimit (t : Token) (problem : Problem) :
    (d.withLimit limit).report t problem = (d.report t problem).withLimit limit := by
  rw [report, report, show (d.withLimit limit).panicking = d.panicking from rfl]
  cases d.panicking <;> rfl

theorem addConstant_withLimit (value : Value) :
    (d.withLimit limit).addConstant value =
      ((d.addConstant value).1, (d.addConstant value).2.withLimit limit) := by
  rw [addConstant, addConstant, show (d.withLimit limit).chunk = d.chunk from rfl]
  by_cases hroom : d.chunk.constants.size < maxConstants
  · simp only [if_pos hroom]
    rfl
  · simp only [if_neg hroom]
    exact congrArg (Prod.mk none) (report_withLimit d limit _ _)

theorem stringConstant_withLimit (text : String) :
    (d.withLimit limit).stringConstant text =
      ((d.stringConstant text).1, (d.stringConstant text).2.withLimit limit) := by
  have hadded : addConstant { d.withLimit limit with interner := (d.interner.intern text).2 }
      (.string (d.interner.intern text).1) = _ :=
    addConstant_withLimit { d with interner := (d.interner.intern text).2 } limit _
  have hinterner : (d.withLimit limit).interner = d.interner := rfl
  have hstrings : (d.withLimit limit).strings = d.strings := rfl
  cases hfind : d.strings.find? (d.interner.intern text).1 with
  | some index =>
    simp only [stringConstant, hinterner, hstrings, hfind]
    rfl
  | none =>
    simp only [hstrings] at hadded
    simp only [stringConstant, hinterner, hstrings, hfind, hadded]
    cases addConstant _ _ with
    | mk index e => cases index <;> rfl

/-- What a name stands for does not depend on the limit. -/
theorem lookup_withLimit :
    (d.withLimit limit).lookup = d.lookup.map fun (get, set, operand, e) =>
      (get, set, operand, e.withLimit limit) := by
  rw [lookup, lookup]
  rw [show (d.withLimit limit).scope.resolve (d.withLimit limit).previous.lexeme =
    d.scope.resolve d.previous.lexeme from rfl]
  cases d.scope.resolve d.previous.lexeme with
  | error cause => rfl
  | ok slot =>
    cases slot with
    | some slot => rfl
    | none =>
      simp only [stringConstant_withLimit]
      rfl

end WithLimit

variable {d d' : Draft}

/-- After steps that leave the scopes as they are, the draft with another limit is still roomier. -/
theorem Roomier.of_scope_eq {e : Draft} {limit : Nat} (hsteps : Steps true d e)
    (hcalm : d.panicking = false) (hfault : e.Faultless) (hscope : e.scope = d.scope)
    (hle : d.scope.limit ≤ limit) : Roomier e (e.withLimit limit) :=
  ⟨hsteps.panicking hcalm hfault.clean, hfault.running, limit, hscope ▸ hle, rfl⟩

/-- A local that one draft has room for, a roomier one has room for as well. -/
theorem Roomier.declareLocal (h : Roomier d d') (name : String)
    (hfault : (d.declareLocal name).Faultless) :
    Roomier (d.declareLocal name) (d'.declareLocal name) := by
  have hcalm := (steps_declareLocal d name).panicking h.calm hfault.clean
  obtain ⟨hpanic, -, limit, hle, rfl⟩ := h
  refine ⟨hcalm, hfault.running, limit, ?_⟩
  rw [Draft.declareLocal] at hfault ⊢
  rw [Draft.declareLocal]
  cases hdeclare : d.scope.declare name with
  | error cause =>
    rw [hdeclare] at hfault
    exact absurd (report_clean_iff.mp hfault.clean).2 (Bool.eq_false_iff.mp hpanic)
  | ok scope =>
    obtain ⟨hfirst, hroom, rfl⟩ := LocalScope.declare_eq_ok_iff.mp hdeclare
    have hdeclare' : (d.withLimit limit).scope.declare name =
        .ok { d.scope with locals := ⟨name, none⟩ :: d.scope.locals, limit } :=
      LocalScope.declare_eq_ok_iff.mpr ⟨hfirst, Nat.lt_of_lt_of_le hroom hle, rfl⟩
    rw [hdeclare']
    exact ⟨hle, rfl⟩

/-- **Compiling keeps drafts the same** but for the limit on locals. -/
theorem abreast_roomier : Abreast Roomier Eq where
  byte _ := rfl
  calm := by
    rintro d _ ⟨hcalm, -, limit, -, rfl⟩
    exact ⟨hcalm, hcalm⟩
  running := by
    rintro d _ ⟨-, hrunning, limit, -, rfl⟩
    exact ⟨hrunning, hrunning⟩
  previous := by
    rintro d _ ⟨-, -, limit, -, rfl⟩
    rfl
  current := by
    rintro d _ ⟨-, -, limit, -, rfl⟩
    rfl
  ahead := by
    rintro d _ ⟨-, -, limit, -, rfl⟩
    rfl
  isGlobal := by
    rintro d _ ⟨-, -, limit, -, rfl⟩
    rfl
  size := by
    rintro d _ ⟨-, -, limit, -, rfl⟩
    rfl
  advance := by
    rintro d _ ⟨hcalm, hrunning, limit, hle, rfl⟩ hfault hfault'
    rw [advance_eq_of_clean hcalm hfault.clean,
      advance_eq_of_clean (d := d.withLimit limit) hcalm hfault'.clean]
    exact ⟨hcalm, hrunning, limit, hle, rfl⟩
  emitByte := by
    rintro d _ byte _ ⟨hcalm, hrunning, limit, hle, rfl⟩ rfl
    exact ⟨hcalm, hrunning, limit, hle, rfl⟩
  patch := by
    rintro d _ offset distance ⟨hcalm, hrunning, limit, hle, rfl⟩
    exact ⟨hcalm, hrunning, limit, hle, rfl⟩
  number := by
    rintro d _ ⟨hcalm, -, limit, hle, rfl⟩ added added' hfault -
    have hadded : added' = (added.1, added.2.withLimit limit) := addConstant_withLimit d limit _
    rw [hadded]
    exact ⟨rfl, .of_scope_eq (steps_addConstant d _) hcalm hfault (scope_addConstant d _) hle⟩
  stringConstant := by
    rintro d _ part ⟨hcalm, -, limit, hle, rfl⟩ added added' hfault -
    have hadded : added' = (added.1, added.2.withLimit limit) := stringConstant_withLimit d limit _
    rw [hadded]
    exact ⟨rfl, .of_scope_eq (steps_stringConstant d _) hcalm hfault (scope_stringConstant d _) hle⟩
  lookup := by
    rintro d _ e e' _ _ _ _ _ _ ⟨hcalm, -, limit, hle, rfl⟩ hlookup hlookup' hfault -
    rw [lookup_withLimit, hlookup] at hlookup'
    cases hlookup'
    obtain ⟨hsteps, constants, panicking, diagnostics, strings, interner, rfl⟩ :=
      exists_lookup_eq hlookup
    exact ⟨rfl, rfl, rfl, .of_scope_eq hsteps hcalm hfault rfl hle⟩
  declareLocal h hfault _ := by
    obtain ⟨limit, -, rfl⟩ := h.eq
    exact h.declareLocal _ hfault
  completeLocal := by
    rintro d _ ⟨hcalm, hrunning, limit, hle, rfl⟩
    have hscope : LocalScope.complete { d.scope with limit } =
        { d.scope.complete with limit } ∧ d.scope.complete.limit = d.scope.limit := by
      rw [LocalScope.complete, LocalScope.complete]
      cases d.scope.locals <;> exact ⟨rfl, rfl⟩
    exact ⟨hcalm, hrunning, limit, hscope.2 ▸ hle, congrArg (fun scope => { d with scope }) hscope.1⟩
  beginScope := by
    rintro d _ ⟨hcalm, hrunning, limit, hle, rfl⟩
    exact ⟨hcalm, hrunning, limit, hle, rfl⟩
  leave := by
    rintro d _ ⟨hcalm, hrunning, limit, hle, rfl⟩
    exact ⟨rfl, hcalm, hrunning, limit, hle, rfl⟩

/-- A source without lexical errors starts in the same way under wider limits. -/
theorem roomier_start {source : String} (htokens : ∀ t ∈ (scan source).tokens, t.kind.error? = none)
    {locals locals' : Nat} (hle : locals ≤ locals') (interner : Interner) :
    Roomier (start source locals interner) (start source locals' interner) := by
  rw [start_eq_of_error? htokens, start_eq_of_error? htokens]
  exact ⟨rfl, rfl, min locals' LocalScope.maxSlots, min_le_min_right _ hle, rfl⟩

end Draft

/-! ### Compilations -/

/-- What compiles without a report compiles to the same under wider limits. -/
theorem compile_eq_of_within {limits limits' : Limits} (hle : limits.Within limits')
    {interner : Interner} {source : String} {c : Compilation}
    (h : compile limits interner source = some c) (hsuccess : c.isSuccess = true) :
    compile limits' interner source = some c := by
  obtain ⟨htokens, program, hprogram, haccepted⟩ :=
    (compile_succeeds_iff limits interner source).mp ⟨c, h, hsuccess⟩
  obtain ⟨c', h', hsuccess'⟩ := (compile_succeeds_iff limits' interner source).mpr
    ⟨htokens, program, hprogram, haccepted.mono hle⟩
  obtain ⟨hrunning, hclean, rfl⟩ := compile_eq_some_iff.mp ⟨h, hsuccess⟩
  obtain ⟨hrunning', hclean', rfl⟩ := compile_eq_some_iff.mp ⟨h', hsuccess'⟩
  obtain ⟨-, -, limit, -, heq⟩ := Draft.abreast_roomier.source hle.nesting
    (Draft.roomier_start htokens hle.locals interner) ⟨hclean, hrunning⟩ ⟨hclean', hrunning'⟩
  rw [h', heq]
  rfl

/-- **Limits only reject.** In any world, a source that compiles without a report compiles under any
wider limits to the same chunk, without a report, and leaves the same world behind. -/
theorem World.compile_eq_of_limits_le {limits limits' : Limits}
    (hlocals : limits.locals ≤ limits'.locals) (hnesting : limits.nesting ≤ limits'.nesting)
    {w w' : World} {source : String} {c : Compilation}
    (h : w.compile limits source = some (c, w')) (hsuccess : c.isSuccess = true) :
    w.compile limits' source = some (c, w') := by
  rw [World.compile, Option.map_eq_some_iff] at h ⊢
  obtain ⟨_, hcompile, heq⟩ := h
  cases heq
  exact ⟨c, compile_eq_of_within ⟨hlocals, hnesting⟩ hcompile hsuccess, rfl⟩

/-- A source that needs every local and every level that the narrower limits leave it. -/
theorem World.compile_eq_of_just_fitting : ∃ c w',
    World.empty.compile ⟨2, 3⟩ "\x7bvar a = \"x\"; \x7bvar b = a; print b;\x7d\x7d" = some (c, w') ∧
      c.isSuccess = true ∧
      World.empty.compile {} "\x7bvar a = \"x\"; \x7bvar b = a; print b;\x7d\x7d" = some (c, w') := by
  have hcompile : (World.empty.compile ⟨2, 3⟩
      "\x7bvar a = \"x\"; \x7bvar b = a; print b;\x7d\x7d").any (·.1.isSuccess) = true := by
    decide +kernel
  obtain ⟨⟨c, w'⟩, hc, hsuccess⟩ := (Option.any_eq_true _ _).mp hcompile
  exact ⟨c, w', hc, hsuccess, World.compile_eq_of_limits_le (by decide) (by decide) hc hsuccess⟩

end Lox
