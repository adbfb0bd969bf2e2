import Lox.Proofs.Counted.Statement

/-!
# The balance of a compilation

Whatever the source, its compilation is in balance at every moment: the counter is the number of
active calls and does not exceed the limit, so that a source of any length is compiled in bounded
depth. Every call leaves behind the nesting and the depth of the scope that it has found, after errors
too, and declarations leave the locals in order. In the end nothing is left of either.

This holds however long one waits for sequences of declarations that never end, and if one does not
wait at all, what is compiled is what is compiled without a counter.

## Main results

* `Counted.balanced_ofSource`: the balance of a compilation.
* `Counted.stallsAtLimit_ofSource`: where compilations can go on for ever.
-/

namespace Lox

namespace Counted

theorem stands_start (limits : Limits) (interner : Interner) (source : String) :
    Stands limits 0 ⟨.start source limits.locals interner, 0, []⟩ where
  nesting := rfl
  bound := Nat.zero_le _
  log := List.forall_mem_nil _

theorem scope_start (limits : Limits) (interner : Interner) (source : String) :
    (Draft.start source limits.locals interner).scope.SettledAt limits 0 := by
  obtain ⟨ahead, panicking, diagnostics, heq, -⟩ :=
    Draft.exists_start_eq source limits.locals interner
  rw [heq]
  exact ⟨rfl, LocalScope.settled_start limits.locals⟩

/-- Compiling a whole source, from where it starts. -/
theorem follows_ofSource (limits : Limits) (patience : Nat) :
    Follows limits patience 0 (LocalScope.SettledAt limits 0) (LocalScope.SettledAt limits 0)
      (fun s => (declarations 0 (declaration 0 (expressionAt limits.nesting (limits.nesting + 1) 0)
        (statement limits.nesting patience (limits.nesting + 1) 0)) .endOfSource
          (s.draft.ahead.length + patience) s).on 0 (·.advance.emitOp .halt))
      (fun d => ((Draft.declarations (Draft.declaration limits.nesting
        (Draft.statement limits.nesting)) .endOfSource d.ahead d).advance.emitOp .halt)) := by
  have hzero := Nat.zero_le limits.nesting
  have hcompile : Balanced limits patience 0 _ _ := balanced_declaration
    (fun level => keeps_expressionAt hzero (Nat.lt_succ_self _) level)
    (balanced_statement hzero (Nat.lt_succ_self _))
  have hdeclarations := balanced_declarations hcompile (advances_declaration fun hroom d =>
    d.steps_advance_statement (Nat.ne_zero_of_lt hroom)) .endOfSource 0
  exact hdeclarations.andThen
    (Keeps.on (fun d => d.plain_advance.trans (Draft.plain_emitOp _ .halt)) _)

/-- Without waiting, what is compiled is what is compiled without a counter. -/
theorem draft_ofSource (limits : Limits) (interner : Interner) (source : String) :
    (ofSource limits interner source 0).draft = Draft.ofSource limits interner source := by
  obtain ⟨-, -, -, hexact⟩ := follows_ofSource limits 0 _
    (stands_start limits interner source) (scope_start limits interner source)
  exact (hexact rfl).1

/-- **Declarations go on for ever** only if some are compiled with no level of nesting left. -/
theorem stallsAtLimit_ofSource (limits : Limits) (interner : Interner) (source : String) :
    (ofSource limits interner source 0).StallsAtLimit limits := by
  obtain ⟨-, -, -, hexact⟩ := follows_ofSource limits 0 _
    (stands_start limits interner source) (scope_start limits interner source)
  refine (hexact rfl).2 ?_
  obtain ⟨ahead, panicking, diagnostics, heq, -⟩ :=
    Draft.exists_start_eq source limits.locals interner
  rw [heq]
  exact ⟨rfl, nofun⟩

/-- **A compilation is in balance.** At every moment the counter is the number of active calls and
within the limit, there is fuel for every call, and whatever happens is put down. A call that returns
has put back the counter and the depth of the scope; after a declaration all locals are initialized,
their depths are in order and between the outermost and the innermost, and there are no more of them
than there may be. In the end the counter and the depth are zero and no locals are left. -/
theorem balanced_ofSource (limits : Limits) (interner : Interner) (source : String)
    (patience : Nat) :
    let s := ofSource limits interner source patience
    (∀ active nesting, .moment active nesting ∈ s.log →
      nesting = active ∧ nesting ≤ limits.nesting) ∧
    .exhausted ∉ s.log ∧
    History 0 ⟨.start source limits.locals interner, 0, []⟩ s ∧
    (∀ construct entry exit, .returned construct entry exit ∈ s.log →
      exit.nesting = entry.nesting ∧ exit.scope.depth = entry.scope.depth ∧
        (construct = .declaration → exit.scope.Settled limits.locals)) ∧
    s.nesting = 0 ∧ s.draft.scope.depth = 0 ∧ s.draft.scope.locals = [] ∧
    (patience = 0 → s.draft = Draft.ofSource limits interner source) := by
  obtain ⟨hstands, hhistory, hsettled, hdraft⟩ := follows_ofSource limits patience _
    (stands_start limits interner source) (scope_start limits interner source)
  exact ⟨fun _ _ hmem => hstands.log _ hmem, fun hmem => hstands.log _ hmem, hhistory,
    fun _ _ _ hmem => hstands.log _ hmem, hstands.nesting, hsettled.1,
    hsettled.2.locals_eq_nil hsettled.1, fun hexact => (hdraft hexact).1⟩

/-- A block that is not closed, with a statement in it that lacks its expression: the counter has
been at two, the statement has returned, and in the end nothing is left. -/
theorem balanced_ofSource_of_unclosed :
    let s := ofSource {} .empty "\x7bprint;" 0
    .moment 2 2 ∈ s.log ∧
      (∃ entry exit, .returned .statement entry exit ∈ s.log ∧ entry.nesting = 1 ∧
        exit.nesting = 1 ∧ exit.scope.depth = entry.scope.depth) ∧
      s.nesting = 0 ∧ s.draft.scope.locals = [] ∧ s.draft.diagnostics.size = 2 := by
  intro s
  have hmoment : .moment 2 2 ∈ s.log := by decide +kernel
  have hreturned : (s.log.any fun event => match event with
      | .returned .statement entry _ => entry.nesting == 1
      | _ => false) = true := by decide +kernel
  have hproblems : s.draft.diagnostics.size = 2 := by decide +kernel
  obtain ⟨-, -, -, hcalls, hnesting, -, hlocals, -⟩ := balanced_ofSource {} .empty "\x7bprint;" 0
  obtain ⟨event, hmem, hevent⟩ := List.any_eq_true.mp hreturned
  obtain ⟨entry, exit, rfl, hentry⟩ : ∃ entry exit,
      event = .returned .statement entry exit ∧ entry.nesting = 1 := by
    cases event with
    | returned construct entry exit =>
      cases construct with
      | statement => exact ⟨entry, exit, rfl, eq_of_beq hevent⟩
      | declaration => cases hevent
      | expression => cases hevent
    | moment => cases hevent
    | exhausted => cases hevent
  obtain ⟨hsame, hdepth, -⟩ := hcalls .statement entry exit hmem
  exact ⟨hmoment, ⟨entry, exit, hmem, hentry, hsame.trans hentry, hdepth⟩, hnesting, hlocals,
    hproblems⟩

end Counted

end Lox
