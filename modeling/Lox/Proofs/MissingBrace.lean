import Lox.Proofs.Acceptance
import Lox.Proofs.Bracing.Statement

/-!
# Reports of missing braces

A source with balanced braces may still be said to miss one: recovery does not look for braces and
may pass the one that closes a block, so that the block goes on up to the end of the source. That
takes a problem at a place that is not sheltered, and so in front of a brace with no semicolon in
between, behind a word of a statement with a body, or at a brace. The problem is reported first.

## Main results

* `exposed_before_missingBrace`: before a brace is reported missing, some other problem is reported
  at an exposed place.
-/

namespace Lox

namespace Draft

variable {source : String} {limits : Limits} {interner : Interner} {d : Draft}

/-- A source whose braces are balanced starts outside of every block. -/
theorem outset_start (hsound : ∀ t ∈ (scan source).tokens, t.kind.error? = none)
    (hbraced : Braced (scan source).tokens) (maxLocals : Nat) (interner : Interner) :
    Outset source 0 false (Draft.start source maxLocals interner) := by
  rw [start_eq_of_error? hsound]
  exact {
    proper := ⟨rfl, fun t ht => isProper_of_mem_scan ht (hsound t ht), nofun⟩
    unalarmed := nofun
    surplus := hbraced.surplus_eq_zero
    place := ⟨[], rfl, nofun⟩
    calm := nofun
    confined := nofun
    still := rfl }

/-- The halt at the end of a source reports nothing. -/
theorem Unexcused.unalarmed_ofSource (hd : Unexcused source (Outset source 0 false)
      (Draft.start source limits.locals interner)) :
    Unexcused source Unalarmed (ofSource limits interner source) := by
  have hwhole := Unexcused.declarations (fun hd => hd.declaration
    (Unexcused.statement limits.nesting) limits.nesting) .endOfSource
    (Draft.start source limits.locals interner).ahead hd
  refine hwhole.step ((steps_advance _).trans (steps_emitOp _ .halt)) fun hd _ => ?_
  show Unalarmed (Draft.advance _)
  rw [hd.1.proper.advance_eq]
  exact hd.1.unalarmed

/-- In front of the first report of a missing brace there is an exposed one. -/
theorem exists_exposed {i : Nat} {x : Diagnostic} (hrunning : d.stalled = false)
    (hd : Unexcused source Unalarmed d) (hx : d.diagnostics[i]? = some x)
    (hproblem : x.problem = .expected .closeBlock) :
    ∃ j < i, ∃ y, d.diagnostics[j]? = some y ∧ y.problem ≠ .expected .closeBlock ∧
      y.IsExposed source := by
  have hexcused : Excused source d := by
    by_contra hexcused
    have hother := hd.holds hexcused x (Array.mem_toList_iff.mpr (Array.mem_of_getElem? hx))
    rw [hproblem] at hother
    cases hother
  obtain hstalled | ⟨found, ⟨rest, hrest⟩, hother, y, hy, hexposed⟩ := hexcused
  · rw [hrunning] at hstalled
    cases hstalled
  have hget (k : Nat) : d.diagnostics[k]? = (found ++ rest)[k]? := by
    rw [hrest, Array.getElem?_toList]
  -- What has been found up to the exposed report is no missing brace, so that comes behind it.
  have hbehind : found.length ≤ i := by
    by_contra hlt
    rw [hget, List.getElem?_append_left (Nat.lt_of_not_le hlt)] at hx
    have hfound := hother x (List.mem_of_getElem? hx)
    rw [hproblem] at hfound
    cases hfound
  obtain ⟨j, hj, rfl⟩ := List.getElem_of_mem hy
  refine ⟨j, Nat.lt_of_lt_of_le hj hbehind, found[j], ?_, fun hsame => ?_, hexposed⟩
  · rw [hget, List.getElem?_append_left hj, List.getElem?_eq_getElem hj]
  · have hfound := hother _ hy
    rw [hsame] at hfound
    cases hfound

end Draft

/-- **Before a brace is reported missing** in a source where none is, some other problem is reported
at an exposed place. So none is reported missing where every problem is sheltered, and the first
report is never of a missing brace. -/
theorem exposed_before_missingBrace {limits : Limits} {interner : Interner} {source : String}
    {c : Compilation} (hsound : ∀ t ∈ (scan source).tokens, t.kind.error? = none)
    (hbraced : Braced (scan source).tokens) (hc : compile limits interner source = some c) {i : Nat}
    {x : Diagnostic} (hx : c.diagnostics[i]? = some x)
    (hproblem : x.problem = .expected .closeBlock) :
    ∃ j < i, ∃ y, c.diagnostics[j]? = some y ∧ y.problem ≠ .expected .closeBlock ∧
      y.IsExposed source := by
  rw [compile] at hc
  split at hc
  · cases hc
  · next hrunning =>
    cases hc
    have hstart : Draft.Unexcused source (Draft.Outset source 0 false)
        (Draft.start source limits.locals interner) := by
      have houtset := Draft.outset_start hsound hbraced limits.locals interner
      exact ⟨houtset.proper.last, fun _ => houtset⟩
    exact Draft.exists_exposed (Bool.eq_false_iff.mpr hrunning) hstart.unalarmed_ofSource hx hproblem

/-- In the first block of `{1+;{print 1}}` a sheltered problem, and an exposed one in the second, whose
brace is passed in recovery, and so is that of the first. -/
theorem exposed_before_missingBrace_of_nested :
    let source := "\x7b1+;\x7bprint 1\x7d\x7d"
    ∃ c, compile {} .empty source = some c ∧
      c.diagnostics.map (·.problem) = #[.expected .expression, .expected .endOfPrint,
        .expected .closeBlock, .expected .closeBlock] ∧
      (∀ t ∈ (scan source).tokens, t.kind.error? = none) ∧ Braced (scan source).tokens ∧
      ∃ j < 2, ∃ y, c.diagnostics[j]? = some y ∧ y.problem ≠ .expected .closeBlock ∧
        y.IsExposed source := by
  intro source
  let token (kind : TokenKind) (lexeme : String) (start stop : Nat) : Token :=
    ⟨kind, lexeme, ⟨start, stop⟩, 1⟩
  let inner := token .leftBrace "\x7b" 4 5 ::
    ([token .kwPrint "print" 5 10, token .number "1" 11 12] ++ [token .rightBrace "\x7d" 12 13])
  have htokens : (scan source).tokens = token .leftBrace "\x7b" 0 1 ::
      ((token .number "1" 1 2 :: token .plus "+" 2 3 :: token .semicolon ";" 3 4 :: inner) ++
        [token .rightBrace "\x7d" 13 14]) := by decide +kernel
  have hinner : Braced inner :=
    .nested rfl (.token (by decide) (.token (by decide) .nil)) rfl .nil
  have hbraced : Braced (scan source).tokens := by
    rw [htokens]
    exact .nested rfl (.token (by decide) (.token (by decide) (.token (by decide) hinner))) rfl .nil
  have hsound : ∀ t ∈ (scan source).tokens, t.kind.error? = none := by
    rw [htokens]
    decide
  have hcompile : (compile {} .empty source).any (fun c =>
      c.diagnostics.map (·.problem) = #[.expected .expression, .expected .endOfPrint,
        .expected .closeBlock, .expected .closeBlock]) = true := by decide +kernel
  obtain ⟨c, hc, hproblems⟩ := (Option.any_eq_true _ _).mp hcompile
  have hproblems := of_decide_eq_true hproblems
  have hthird : (c.diagnostics.map (·.problem))[2]? = some (.expected .closeBlock) := by
    rw [hproblems]
    rfl
  rw [Array.getElem?_map] at hthird
  obtain ⟨x, hx, hproblem⟩ := Option.map_eq_some_iff.mp hthird
  exact ⟨c, hc, hproblems, hsound, hbraced, exposed_before_missingBrace hsound hbraced hc hx hproblem⟩

/-- **A brace is reported missing where none is**: recovery from the missing semicolon passes the
brace that closes the block. -/
theorem compile_print_in_block :
    let source := "\x7bprint 1\x7d"
    ∃ c, compile {} .empty source = some c ∧
      (∀ t ∈ (scan source).tokens, t.kind.error? = none) ∧ Braced (scan source).tokens ∧
      c.diagnostics.map (·.problem) = #[.expected .endOfPrint, .expected .closeBlock] := by
  intro source
  let token (kind : TokenKind) (lexeme : String) (start stop : Nat) : Token :=
    ⟨kind, lexeme, ⟨start, stop⟩, 1⟩
  have htokens : (scan source).tokens = token .leftBrace "\x7b" 0 1 ::
      ([token .kwPrint "print" 1 6, token .number "1" 7 8] ++ [token .rightBrace "\x7d" 8 9]) := by
    decide +kernel
  have hcompile : (compile {} .empty source).any (fun c =>
      c.diagnostics.map (·.problem) = #[.expected .endOfPrint, .expected .closeBlock]) = true := by
    decide +kernel
  obtain ⟨c, hc, hproblems⟩ := (Option.any_eq_true _ _).mp hcompile
  refine ⟨c, hc, ?_, ?_, of_decide_eq_true hproblems⟩
  · rw [htokens]
    decide
  · rw [htokens]
    exact .nested rfl (.token (by decide) (.token (by decide) .nil)) rfl .nil

end Lox
