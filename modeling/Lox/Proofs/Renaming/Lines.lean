import Lox.Proofs.Abreast.Statement
import Lox.Proofs.Acceptance
import Lox.Proofs.Draft.Settled

/-!
# The lines of a compilation

Every byte is written on the line of the token just passed. So two compilations without a report
whose tokens are of the same kinds, and on the same lines, fill the same line table, whatever the
texts of the tokens are.

## Main definitions

* `Draft.Aligned`: two drafts that have come to the same place on the same lines.

## Main results

* `Draft.abreast_aligned`: compiling keeps drafts aligned.
* `lines_eq_of_aligned`: the line tables of two compilations.
-/

namespace Lox

/-- Two tokens of the same kind on the same line. -/
structure Token.Aligned (t t' : Token) : Prop where
  kind : t.kind = t'.kind
  line : t.line = t'.line

/-- Completing a local makes its depth that of the scope, whatever its name is. -/
theorem LocalScope.complete_depths {scope scope' : LocalScope} (hdepth : scope.depth = scope'.depth)
    (hlocals : scope.locals.map Local.depth = scope'.locals.map Local.depth) :
    scope.complete.depth = scope'.complete.depth ∧
      scope.complete.locals.map Local.depth = scope'.complete.locals.map Local.depth := by
  rw [LocalScope.complete, LocalScope.complete]
  cases hl : scope.locals with
  | nil =>
    rw [hl, List.map_nil] at hlocals
    have hl' := List.map_eq_nil_iff.mp hlocals.symm
    rw [hl']
    exact ⟨hdepth, by rw [hl, hl']⟩
  | cons l locals =>
    rw [hl, List.map_cons] at hlocals
    obtain ⟨l', locals', hl', -, hrest⟩ := List.map_eq_cons_iff.mp hlocals.symm
    rw [hl']
    exact ⟨hdepth, by simp only [List.map_cons, hdepth, hrest]⟩

namespace Draft

/-- Two drafts without a report whose tokens are of the same kinds and on the same lines, and which
have written as many bytes on each line. Their locals are as many in each scope. -/
structure Aligned (d d' : Draft) : Prop where
  calm : d.panicking = false ∧ d'.panicking = false
  running : d.stalled = false ∧ d'.stalled = false
  previous : d.previous.Aligned d'.previous
  ahead : List.Forall₂ Token.Aligned d.ahead d'.ahead
  last : d.last.Aligned d'.last
  lines : d.chunk.lines = d'.chunk.lines
  size : d.size = d'.size
  depth : d.scope.depth = d'.scope.depth
  locals : d.scope.locals.map Local.depth = d'.scope.locals.map Local.depth

variable {d d' : Draft}

theorem Aligned.current (h : d.Aligned d') : d.current.Aligned d'.current := by
  have hlast := h.last
  have hahead := h.ahead
  rw [Draft.current, Draft.current]
  generalize d.ahead = ahead, d'.ahead = ahead' at hahead ⊢
  cases hahead with
  | nil => exact hlast
  | cons ht => exact ht

theorem Aligned.tail (h : d.Aligned d') : List.Forall₂ Token.Aligned d.ahead.tail d'.ahead.tail := by
  have hahead := h.ahead
  generalize d.ahead = ahead, d'.ahead = ahead' at hahead ⊢
  cases hahead with
  | nil => exact .nil
  | cons _ hmore => exact hmore

/-- Adding constants keeps drafts aligned, as long as that is not reported. -/
theorem Aligned.constants (h : d.Aligned d') {e e' : Draft} {constants constants' : Array Value}
    {panicking panicking' : Bool} {diagnostics diagnostics' : Array Diagnostic}
    {strings strings' : SymbolTable UInt8} {interner interner' : Interner}
    (he : e = { d with
      chunk := { d.chunk with constants }, panicking, diagnostics, strings, interner })
    (he' : e' = { d' with
      chunk := { d'.chunk with constants := constants' }, panicking := panicking',
      diagnostics := diagnostics', strings := strings', interner := interner' })
    (hcalm : e.panicking = false) (hcalm' : e'.panicking = false) : e.Aligned e' := by
  subst he he'
  exact ⟨⟨hcalm, hcalm'⟩, h.running, h.previous, h.ahead, h.last, h.lines, h.size, h.depth, h.locals⟩

/-- A local is declared on both sides. -/
theorem exists_declareLocal_eq (hcalm : d.panicking = false) {name : String}
    (hclean : (d.declareLocal name).Clean) : d.declareLocal name =
      { d with scope := { d.scope with locals := ⟨name, none⟩ :: d.scope.locals } } := by
  rw [declareLocal] at hclean ⊢
  cases hdeclare : d.scope.declare name with
  | error cause =>
    rw [hdeclare] at hclean
    exact absurd (report_clean_iff.mp hclean).2 (Bool.eq_false_iff.mp hcalm)
  | ok scope =>
    obtain ⟨-, -, rfl⟩ := LocalScope.declare_eq_ok_iff.mp hdeclare
    rfl

/-- As many locals go with a scope on both sides. -/
theorem Aligned.leave (h : d.Aligned d') :
    d.scope.leave.locals.map Local.depth = d'.scope.leave.locals.map Local.depth := by
  have hleave : ∀ scope : LocalScope, scope.leave.locals.map Local.depth =
      (scope.locals.map Local.depth).dropWhile fun depth => !depth.any (· ≤ scope.depth - 1) := by
    intro scope
    rw [List.dropWhile_map]
    rfl
  rw [hleave, hleave, h.locals, h.depth]

theorem Aligned.size_eq (h : d.Aligned d') : d.scope.size = d'.scope.size := by
  have hlength := congrArg List.length h.locals
  rwa [List.length_map, List.length_map] at hlength

/-- **Compiling keeps drafts aligned.** -/
theorem abreast_aligned : Abreast Aligned fun _ _ => True where
  byte _ := trivial
  calm h := h.calm
  running h := h.running
  previous h := h.previous.kind
  current h := h.current.kind
  ahead h := h.ahead.length_eq
  isGlobal h := congrArg (· == 0) h.depth
  size h := h.size
  advance h hfault hfault' := by
    rw [advance_eq_of_clean h.calm.1 hfault.clean, advance_eq_of_clean h.calm.2 hfault'.clean]
    exact ⟨h.calm, h.running, h.current, h.tail, h.last, h.lines, h.size, h.depth, h.locals⟩
  emitByte := by
    intro d d' byte byte' h _
    have hlines : (d.emitByte byte).chunk.lines = (d'.emitByte byte').chunk.lines := by
      simp only [Draft.emitByte, Chunk.write, h.lines, h.previous.line]
    have hsize : (d.emitByte byte).size = (d'.emitByte byte').size := by
      have hsize := h.size
      simp only [Draft.size, Draft.emitByte, Chunk.size, Chunk.write, Array.size_push] at hsize ⊢
      rw [hsize]
    exact ⟨h.calm, h.running, h.previous, h.ahead, h.last, hlines, hsize, h.depth, h.locals⟩
  patch offset distance h := by
    refine ⟨h.calm, h.running, h.previous, h.ahead, h.last, h.lines, ?_, h.depth, h.locals⟩
    have hsize := h.size
    simp only [Draft.size, Chunk.size, Chunk.patch, Array.size_setIfInBounds] at hsize ⊢
    exact hsize
  number := by
    intro d d' h added added' hfault hfault'
    obtain ⟨constants, panicking, diagnostics, heq⟩ := exists_addConstant_eq d _
    obtain ⟨constants', panicking', diagnostics', heq'⟩ := exists_addConstant_eq d' _
    exact ⟨trivial, h.constants heq heq'
      ((steps_addConstant d _).panicking h.calm.1 hfault.clean)
      ((steps_addConstant d' _).panicking h.calm.2 hfault'.clean)⟩
  stringConstant := by
    intro d d' part h added added' hfault hfault'
    obtain ⟨constants, panicking, diagnostics, strings, interner, heq⟩ := exists_stringConstant_eq d _
    obtain ⟨constants', panicking', diagnostics', strings', interner', heq'⟩ :=
      exists_stringConstant_eq d' _
    exact ⟨trivial, h.constants heq heq'
      ((steps_stringConstant d _).panicking h.calm.1 hfault.clean)
      ((steps_stringConstant d' _).panicking h.calm.2 hfault'.clean)⟩
  lookup h hlookup hlookup' hfault hfault' := by
    obtain ⟨hsteps, constants, panicking, diagnostics, strings, interner, heq⟩ :=
      exists_lookup_eq hlookup
    obtain ⟨hsteps', constants', panicking', diagnostics', strings', interner', heq'⟩ :=
      exists_lookup_eq hlookup'
    exact ⟨trivial, trivial, trivial, h.constants heq heq' (hsteps.panicking h.calm.1 hfault.clean)
      (hsteps'.panicking h.calm.2 hfault'.clean)⟩
  declareLocal h hfault hfault' := by
    rw [exists_declareLocal_eq h.calm.1 hfault.clean, exists_declareLocal_eq h.calm.2 hfault'.clean]
    exact ⟨h.calm, h.running, h.previous, h.ahead, h.last, h.lines, h.size, h.depth,
      congrArg (none :: ·) h.locals⟩
  completeLocal := by
    intro d d' h
    obtain ⟨hdepth, hlocals⟩ := LocalScope.complete_depths h.depth h.locals
    exact ⟨h.calm, h.running, h.previous, h.ahead, h.last, h.lines, h.size, hdepth, hlocals⟩
  beginScope h := ⟨h.calm, h.running, h.previous, h.ahead, h.last, h.lines, h.size,
    congrArg (· + 1) h.depth, h.locals⟩
  leave := by
    intro d d' h
    have hsize := congrArg List.length h.leave
    rw [List.length_map, List.length_map] at hsize
    refine ⟨?_, h.calm, h.running, h.previous, h.ahead, h.last, h.lines, h.size,
      congrArg (· - 1) h.depth, h.leave⟩
    rw [h.size_eq]
    exact congrArg (d'.scope.size - ·) hsize

/-- Sources without lexical errors whose tokens are aligned start aligned. -/
theorem aligned_start {source source' : String}
    (htokens : List.Forall₂ Token.Aligned (scan source).tokens (scan source').tokens)
    (hlast : (scan source).last.line = (scan source').last.line)
    (herror : ∀ t ∈ (scan source).tokens, t.kind.error? = none)
    (herror' : ∀ t ∈ (scan source').tokens, t.kind.error? = none) (maxLocals : Nat)
    (interner interner' : Interner) :
    (start source maxLocals interner).Aligned (start source' maxLocals interner') := by
  rw [start_eq_of_error? herror, start_eq_of_error? herror']
  exact ⟨⟨rfl, rfl⟩, ⟨rfl, rfl⟩, ⟨rfl, rfl⟩, htokens, ⟨rfl, hlast⟩, rfl, rfl, rfl, rfl⟩

end Draft

/-- **The line tables** of two compilations without a report are the same, if the tokens of the
sources are of the same kinds and on the same lines. -/
theorem lines_eq_of_aligned {limits : Limits} {interner interner' : Interner}
    {source source' : String} {c c' : Compilation}
    (htokens : List.Forall₂ Token.Aligned (scan source).tokens (scan source').tokens)
    (hlast : (scan source).last.line = (scan source').last.line)
    (h : compile limits interner source = some c) (hsuccess : c.isSuccess = true)
    (h' : compile limits interner' source' = some c') (hsuccess' : c'.isSuccess = true) :
    c'.chunk.lines = c.chunk.lines := by
  obtain ⟨hrunning, hclean, rfl⟩ := compile_eq_some_iff.mp ⟨h, hsuccess⟩
  obtain ⟨hrunning', hclean', rfl⟩ := compile_eq_some_iff.mp ⟨h', hsuccess'⟩
  have hstart := Draft.aligned_start htokens hlast (Draft.error?_of_clean hclean hrunning)
    (Draft.error?_of_clean hclean' hrunning') limits.locals interner interner'
  exact (Draft.abreast_aligned.source (Nat.le_refl _) hstart ⟨hclean, hrunning⟩
    ⟨hclean', hrunning'⟩).lines.symm

end Lox
