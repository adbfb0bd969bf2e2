import Lox.Compilation
import Lox.Proofs.Counted.Expression

/-!
# Rejected declarations

A declaration of a local can be rejected: its name is missing, or the innermost scope has a variable
of that name already, or there are too many locals. Its initial value is compiled nevertheless, and
after that the latest local is marked as initialized in the innermost scope, whichever local that is.

So after a name that could not be declared, the latest local of an enclosing scope is one of the
innermost scope from then on, unless that scope has locals of its own, and closing the scope drops it
too soon. After a name that is missing, the word before it is declared in its place.

## Main definitions

* `Draft.variableName`: the name that a declaration declares.
* `Draft.RejectsVariable`: the declaration should declare nothing.

## Main results

* `Draft.scope_varDeclaration`: what a declaration in a scope does to the locals.
* `LocalScope.Settled.leave_complete`: which local is dropped too soon.
* `Draft.locals_of_rejected`: when a rejected declaration leaves the locals alone.
-/

namespace Lox

/-! ### Marking a local that is initialized already -/

namespace LocalScope

variable {limit : Nat} {s : LocalScope} {name : String}

theorem locals_complete_eq_iff : s.complete.locals = s.locals ↔
    ∀ l ∈ s.locals.head?, l.depth = some s.depth := by
  obtain ⟨locals, depth, bound⟩ := s
  cases locals with
  | nil => simp [complete]
  | cons l outer =>
    obtain ⟨name, at?⟩ := l
    simp [complete, eq_comm]

theorem complete_eq_self (h : ∀ l ∈ s.locals.head?, l.depth = some s.depth) : s.complete = s := by
  have hlocals := locals_complete_eq_iff.mpr h
  obtain ⟨locals, depth, bound⟩ := s
  cases locals with
  | nil => rfl
  | cons l outer => exact congrArg (LocalScope.mk · depth bound) hlocals

/-- When there are too many locals for a name that could be declared. -/
theorem declare_eq_tooManyLocals_iff : s.declare name = .error .tooManyLocals ↔
    (s.locals.takeWhile s.isInnermost).any (·.name == name) = false ∧ s.limit ≤ s.size := by
  rw [LocalScope.declare]
  split
  · next htaken => simp [htaken]
  · next hfree =>
    rw [Bool.not_eq_true] at hfree
    split
    · next hfull => simp [hfree, hfull]
    · next hroom => simp [Nat.lt_of_not_le hroom]

/-- A name is declared twice only where the latest local is one of the innermost scope. -/
theorem Settled.head_of_redeclared (h : s.Settled limit)
    (hdeclare : s.declare name = .error .redeclared) :
    ∀ l ∈ s.locals.head?, l.depth = some s.depth := by
  intro l hhead
  obtain ⟨outer, hlocals⟩ := List.head?_eq_some_iff.mp hhead
  obtain ⟨depths, hdepths, -, hbounds⟩ := h.depths
  rw [hlocals] at hdepths
  obtain ⟨depth, depths, rfl, hdepth, -⟩ := List.map_eq_cons_iff.mp hdepths.symm
  have hle := (hbounds depth List.mem_cons_self).2
  have hinner : s.isInnermost l = true := by
    by_contra houter
    rw [LocalScope.declare, hlocals, List.takeWhile_cons_of_neg houter] at hdeclare
    simp only [List.any_nil, Bool.false_eq_true, if_false] at hdeclare
    split at hdeclare <;> simp at hdeclare
  simp only [isInnermost, ← hdepth, Option.all_some, decide_eq_true_eq] at hinner
  rw [← hdepth, Nat.le_antisymm hle hinner]

/-- Nothing is dropped where the latest local lies outside. -/
theorem dropWhile_eq_self {bound : Nat} {locals : List Local}
    (h : ∀ l ∈ locals.head?, ∃ depth ≤ bound, l.depth = some depth) :
    (locals.dropWhile fun l => !l.depth.any (· ≤ bound)) = locals := by
  cases locals with
  | nil => rfl
  | cons l outer =>
    obtain ⟨depth, hle, hdepth⟩ := h l rfl
    exact List.dropWhile_cons_of_neg (by simp [hdepth, hle])

/-- **What is dropped too soon.** If the innermost scope has no local when the latest one is marked,
closing it drops the latest local of the enclosing scopes. -/
theorem Settled.locals_leave_complete (h : s.Settled limit) (hlocal : s.depth ≠ 0) :
    s.complete.leave.locals =
      if ∀ l ∈ s.locals.head?, l.depth = some s.depth then s.leave.locals
      else s.leave.locals.tail := by
  split
  · next hhead => rw [complete_eq_self hhead]
  · next houter =>
    obtain ⟨locals, innermost, bound⟩ := s
    obtain ⟨depths, hdepths, hsorted, hbounds⟩ := h.depths
    cases locals with
    | nil => exact absurd nofun houter
    | cons l outer =>
      obtain ⟨depth, depths, rfl, hdepth, hrest⟩ := List.map_eq_cons_iff.mp hdepths.symm
      have hle : depth ≤ innermost := (hbounds depth List.mem_cons_self).2
      have hne : depth ≠ innermost := by
        rintro rfl
        exact houter (by simp [hdepth])
      have hpositive : innermost ≠ 0 := hlocal
      have hmarked : ¬ innermost ≤ innermost - 1 := by omega
      have houtside : depth ≤ innermost - 1 := by omega
      have hkept : (LocalScope.mk (l :: outer) innermost bound).leave.locals = l :: outer :=
        dropWhile_eq_self fun _ hhead => by
          obtain rfl := Option.some.inj hhead
          exact ⟨depth, houtside, hdepth.symm⟩
      have hrestKept : (outer.dropWhile fun l => !l.depth.any (· ≤ innermost - 1)) = outer :=
        dropWhile_eq_self fun next hhead => by
          obtain ⟨others, rfl⟩ := List.head?_eq_some_iff.mp hhead
          obtain ⟨below, depths, rfl, hbelow, -⟩ := List.map_eq_cons_iff.mp hrest
          have hsmaller := List.rel_of_pairwise_cons hsorted List.mem_cons_self
          exact ⟨below, Nat.le_trans hsmaller houtside, hbelow.symm⟩
      rw [hkept, List.tail_cons]
      exact (List.dropWhile_cons_of_pos (by simp [hmarked])).trans hrestKept

end LocalScope

namespace Draft

variable {d : Draft}

/-! ### Declarations in a scope -/

/-- An expression leaves the scope as it is. -/
@[simp] theorem scope_expressionAt (levels : Nat) (level : Precedence) (d : Draft) :
    (d.expressionAt levels level).scope = d.scope := by
  let limits : Limits := { nesting := levels }
  have hkeeps : Counted.Keeps limits 0 0 _ _ :=
    Counted.keeps_expressionAt (Nat.zero_le _) (Nat.lt_succ_self _) level
  obtain ⟨-, -, hscope, hdraft⟩ :=
    hkeeps (· = d.scope) ⟨d, 0, []⟩ ⟨rfl, Nat.zero_le _, List.forall_mem_nil _⟩ rfl
  rw [(hdraft rfl).1] at hscope
  exact hscope

theorem scope_initialValue (levels : Nat) (d : Draft) :
    (d.initialValue levels).scope = d.scope := by
  rw [initialValue, scope_expect]
  split
  · rw [expression, scope_expressionAt, scope_advance]
  · rfl

/-- The name that a declaration declares whose keyword has just been passed. -/
def variableName (d : Draft) : String := (d.expect .identifier .variableName).previous.lexeme

/-- Where the identifier is missing, whatever has just been passed is taken for it. -/
theorem variableName_eq (d : Draft) : d.variableName =
    if d.check .identifier then d.current.lexeme else d.previous.lexeme := by
  rw [variableName, expect]
  split
  · obtain ⟨rest, panicking, diagnostics, heq, -⟩ := exists_advance_eq (d := d)
    rw [heq]
  · rw [failAtCurrent, report]
    split <;> rfl

/-- What a declaration in a scope does to the locals. -/
theorem scope_varDeclaration (levels : Nat) (hlocal : d.scope.depth ≠ 0) :
    (d.varDeclaration levels).scope =
      match d.scope.declare d.variableName with
      | .ok scope => scope.complete
      | .error _ => d.scope.complete := by
  have hglobal : (d.expect .identifier .variableName).scope.isGlobal = false := by
    simpa [LocalScope.isGlobal] using hlocal
  simp only [varDeclaration, hglobal, Bool.false_eq_true, if_false, completeLocal]
  rw [scope_initialValue, declareLocal, scope_expect, ← variableName]
  split <;> simp_all

/-! ### Rejected declarations -/

/-- The declaration should declare nothing, since its name is missing or cannot be declared. -/
def RejectsVariable (d : Draft) : Prop :=
  d.check .identifier = false ∨ ∃ cause, d.scope.declare d.variableName = .error cause

/-- **When a rejected declaration leaves the locals alone.** It does so if and only if the name, be
it what was taken for a name, could not be declared and the latest local, if there is one, belongs to
the innermost scope. In a settled scope this is the case after a second declaration of a name. If it
is not the case after there were too many locals, the innermost scope has none, and when it is closed
the latest local of the enclosing scopes is dropped with it. If a missing name could be declared, the
word before it is a local from then on. -/
theorem locals_of_rejected (levels : Nat) (hlocal : d.scope.depth ≠ 0)
    (hrejected : d.RejectsVariable) :
    let after := (d.varDeclaration levels).scope
    (after.locals = d.scope.locals ↔
      (∃ cause, d.scope.declare d.variableName = .error cause) ∧
        ∀ l ∈ d.scope.locals.head?, l.depth = some d.scope.depth) ∧
    (∀ limit, d.scope.Settled limit →
      (d.scope.declare d.variableName = .error .redeclared → after = d.scope) ∧
      (∀ cause, d.scope.declare d.variableName = .error cause →
        after.leave.locals = if after.locals = d.scope.locals then d.scope.leave.locals
          else d.scope.leave.locals.tail)) ∧
    (∀ scope, d.scope.declare d.variableName = .ok scope → d.check .identifier = false ∧
      after.locals = ⟨d.previous.lexeme, some d.scope.depth⟩ :: d.scope.locals) := by
  rw [scope_varDeclaration levels hlocal]
  cases hdeclare : d.scope.declare d.variableName with
  | error cause =>
    refine ⟨?_, fun limit hsettled => ⟨fun hcause => ?_, fun _ _ => ?_⟩, nofun⟩
    · simp [LocalScope.locals_complete_eq_iff]
    · obtain rfl : cause = .redeclared := by simpa using hcause
      exact LocalScope.complete_eq_self (hsettled.head_of_redeclared hdeclare)
    · simp only [LocalScope.locals_complete_eq_iff]
      exact hsettled.locals_leave_complete hlocal
  | ok scope =>
    have hmissing : d.check .identifier = false := by
      rcases hrejected with hmissing | ⟨cause, herror⟩
      · exact hmissing
      · rw [hdeclare] at herror
        exact nomatch herror
    obtain ⟨-, -, rfl⟩ := LocalScope.declare_eq_ok_iff.mp hdeclare
    refine ⟨?_, fun limit _ => ⟨nofun, nofun⟩, fun _ _ => ⟨hmissing, ?_⟩⟩
    · simp [LocalScope.complete]
    · simp [LocalScope.complete, variableName_eq, hmissing]

/-- With room for one local, a declaration in a block inside that of the local changes the locals. -/
theorem locals_of_rejected_in_inner_block :
    let limits : Limits := { locals := 1 }
    let outer := (Draft.start "\x7bvar a;\x7bvar b;\x7dvar a;\x7d" limits.locals .empty).advance.beginScope
    let d := (outer.advance.varDeclaration 255).advance.beginScope.advance
    d.scope.depth ≠ 0 ∧ d.RejectsVariable ∧ (d.varDeclaration 254).scope.locals ≠ d.scope.locals := by
  intro limits outer d
  have hlocal : d.scope.depth ≠ 0 := by decide +kernel
  have hrejected : d.scope.declare d.variableName = .error .tooManyLocals :=
    LocalScope.declare_eq_tooManyLocals_iff.mpr (by decide +kernel)
  refine ⟨hlocal, .inr ⟨_, hrejected⟩, fun hsame => ?_⟩
  have hhead := ((locals_of_rejected 254 hlocal (.inr ⟨_, hrejected⟩)).1.mp hsame).2
  exact absurd (hhead ⟨"a", some 1⟩ (by decide +kernel)) (by decide +kernel)

end Draft

/-- Then the second declaration of the name in its block is not noticed, because the local has been
dropped with the inner block, and is popped there. -/
theorem compile_after_rejected_in_inner_block :
    (compile { locals := 1 } .empty "\x7bvar a;\x7bvar b;\x7dvar a;\x7d").map (fun c =>
      (c.diagnostics.toList.map Diagnostic.problem, c.chunk.code.toList)) =
    some ([.scope .tooManyLocals],
      [OpCode.nil, .nil, .pop, .nil, .pop, .halt].map OpCode.toByte) := by
  decide +kernel

end Lox
