import Lox.Proofs.Draft.Invariants

/-!
# Settled scopes

Between declarations the locals are in order: all are initialized, none lies deeper than one declared
after it, and there are no more than the limit. A declaration unsettles the scope for as long as the
initial value is compiled. It settles it again even if the local could not be declared, when it marks
the one before.

## Main definitions

* `LocalScope.Settled`: the locals are in order.
* `Draft.Plain`: changes of a draft that leave the scope alone and do not stall.

## Main results

* `LocalScope.Settled.enter`, `LocalScope.Settled.leave`: opening and closing scopes.
* `LocalScope.Settled.complete`, `LocalScope.Settled.declare`: what a declaration comes to.
* `Draft.scope_skip`, `Draft.scope_synchronize` and their kin: what leaves the scope as it is.
-/

namespace Lox

namespace LocalScope

/-- When a local can be declared, and what that does. -/
theorem declare_eq_ok_iff {s s' : LocalScope} {name : String} : s.declare name = .ok s' ↔
    (s.locals.takeWhile s.isInnermost).any (·.name == name) = false ∧ s.size < s.limit ∧
      { s with locals := ⟨name, none⟩ :: s.locals } = s' := by
  rw [declare]
  split
  · next htaken => simp [htaken]
  · next hfree =>
    rw [Bool.not_eq_true] at hfree
    split
    · next hfull => simp [Nat.not_lt_of_le hfull]
    · next hroom => simp [hfree, Nat.lt_of_not_le hroom]

/-- The locals are initialized, each at a depth between the outermost and the innermost, none deeper
than one declared after it, and no more of them than there may be. -/
structure Settled (limit : Nat) (s : LocalScope) : Prop where
  /-- The depths, from the latest local to the first. -/
  depths : ∃ depths : List Nat, s.locals.map Local.depth = depths.map some ∧
    depths.Pairwise (fun later earlier => earlier ≤ later) ∧
    ∀ depth ∈ depths, 1 ≤ depth ∧ depth ≤ s.depth
  size : s.size ≤ min limit maxSlots
  limit : s.limit = min limit maxSlots

variable {limit : Nat} {s s' : LocalScope} {name : String}

theorem settled_start (limit : Nat) : (start limit).Settled limit where
  depths := ⟨[], rfl, .nil, nofun⟩
  size := Nat.zero_le _
  limit := rfl

/-- The global scope has no locals. -/
theorem Settled.locals_eq_nil (h : s.Settled limit) (hglobal : s.depth = 0) : s.locals = [] := by
  obtain ⟨depths, hdepths, -, hbounds⟩ := h.depths
  cases depths with
  | nil => exact List.map_eq_nil_iff.mp hdepths
  | cons depth depths =>
    have hbound := hbounds depth List.mem_cons_self
    omega

theorem Settled.enter (h : s.Settled limit) : s.enter.Settled limit where
  depths := by
    obtain ⟨depths, hdepths, hsorted, hbounds⟩ := h.depths
    exact ⟨depths, hdepths, hsorted, fun depth hmem =>
      ⟨(hbounds depth hmem).1, Nat.le_succ_of_le (hbounds depth hmem).2⟩⟩
  size := h.size
  limit := h.limit

/-- The depths of the locals left when those deeper than a bound are dropped. -/
theorem exists_depths_dropWhile (bound : Nat) {locals : List Local} {depths : List Nat}
    (hdepths : locals.map Local.depth = depths.map some)
    (hsorted : depths.Pairwise (fun later earlier => earlier ≤ later)) :
    ∃ rest, rest <:+ depths ∧ (∀ depth ∈ rest, depth ≤ bound) ∧
      (locals.dropWhile fun l => !l.depth.any (· ≤ bound)).map Local.depth = rest.map some := by
  induction locals generalizing depths with
  | nil =>
    obtain rfl := List.map_eq_nil_iff.mp hdepths.symm
    exact ⟨[], List.suffix_refl _, nofun, rfl⟩
  | cons l locals ih =>
    obtain ⟨depth, depths, rfl, hdepth, hrest⟩ := List.map_eq_cons_iff.mp hdepths.symm
    by_cases hle : depth ≤ bound
    · refine ⟨depth :: depths, List.suffix_refl _, fun k hk => ?_, ?_⟩
      · rcases List.mem_cons.mp hk with rfl | hmem
        · exact hle
        · exact Nat.le_trans (List.rel_of_pairwise_cons hsorted hmem) hle
      · rw [List.dropWhile_cons_of_neg (by simp [← hdepth, hle]), hdepths]
    · obtain ⟨rest, hsuffix, hbounds, heq⟩ := ih hrest.symm hsorted.of_cons
      refine ⟨rest, hsuffix.trans (List.suffix_cons ..), hbounds, ?_⟩
      rw [List.dropWhile_cons_of_pos (by simp [← hdepth, hle]), heq]

/-- **Closing a scope** leaves the locals in order, the outer scopes' at most. -/
theorem Settled.leave (h : s.Settled limit) : s.leave.Settled limit where
  depths := by
    obtain ⟨depths, hdepths, hsorted, hbounds⟩ := h.depths
    obtain ⟨rest, hsuffix, hle, heq⟩ := exists_depths_dropWhile (s.depth - 1) hdepths hsorted
    exact ⟨rest, heq, hsorted.sublist hsuffix.sublist,
      fun depth hmem => ⟨(hbounds depth (hsuffix.subset hmem)).1, hle depth hmem⟩⟩
  size := Nat.le_trans (List.dropWhile_suffix _).length_le h.size
  limit := h.limit

/-- Marking the latest local again moves it to the innermost scope. -/
theorem Settled.complete (h : s.Settled limit) (hlocal : 1 ≤ s.depth) :
    s.complete.Settled limit := by
  obtain ⟨depths, hdepths, hsorted, hbounds⟩ := h.depths
  rw [LocalScope.complete]
  split
  · exact h
  · next l outer hlocals =>
    rw [hlocals] at hdepths
    obtain ⟨depth, depths, rfl, hdepth, hrest⟩ := List.map_eq_cons_iff.mp hdepths.symm
    refine ⟨⟨s.depth :: depths, ?_, ?_, ?_⟩, ?_, h.limit⟩
    · rw [List.map_cons, List.map_cons, hrest]
    · exact List.pairwise_cons.mpr
        ⟨fun k hk => (hbounds k (List.mem_cons_of_mem _ hk)).2, hsorted.of_cons⟩
    · intro k hk
      rcases List.mem_cons.mp hk with rfl | hmem
      · exact ⟨hlocal, Nat.le_refl _⟩
      · exact hbounds k (List.mem_cons_of_mem _ hmem)
    · have hsize := h.size
      rw [LocalScope.size, hlocals] at hsize
      exact hsize

/-- A local that has been declared settles the scope when it is marked. -/
theorem Settled.declare (h : s.Settled limit) (hlocal : 1 ≤ s.depth)
    (hdeclare : s.declare name = .ok s') : s'.depth = s.depth ∧ s'.complete.Settled limit := by
  obtain ⟨-, hroom, rfl⟩ := declare_eq_ok_iff.mp hdeclare
  obtain ⟨depths, hdepths, hsorted, hbounds⟩ := h.depths
  refine ⟨rfl, ⟨s.depth :: depths, ?_, ?_, ?_⟩, ?_, h.limit⟩
  · rw [LocalScope.complete, List.map_cons, List.map_cons, hdepths]
  · exact List.pairwise_cons.mpr ⟨fun k hk => (hbounds k hk).2, hsorted⟩
  · intro k hk
    rcases List.mem_cons.mp hk with rfl | hmem
    · exact ⟨hlocal, Nat.le_refl _⟩
    · exact hbounds k hmem
  · rw [h.limit] at hroom
    exact hroom

theorem depth_complete (s : LocalScope) : s.complete.depth = s.depth := by
  rw [complete]
  split <;> rfl

end LocalScope

/-! ### What leaves the scope as it is -/

namespace Draft

variable (d : Draft)

@[simp] theorem scope_report (t : Token) (problem : Problem) :
    (d.report t problem).scope = d.scope := by
  rw [report]
  split <;> rfl

@[simp] theorem scope_failAtPrevious (problem : Problem) :
    (d.failAtPrevious problem).scope = d.scope := scope_report d ..

@[simp] theorem scope_failAtCurrent (problem : Problem) :
    (d.failAtCurrent problem).scope = d.scope := scope_report d ..

@[simp] theorem scope_advance : d.advance.scope = d.scope := by
  obtain ⟨rest, panicking, diagnostics, heq, -⟩ := exists_advance_eq (d := d)
  rw [heq]

@[simp] theorem scope_expect (kind : TokenKind) (what : Expectation) :
    (d.expect kind what).scope = d.scope := by
  rw [expect]
  split
  · exact scope_advance d
  · exact scope_failAtCurrent d _

@[simp] theorem scope_emitByte (byte : UInt8) : (d.emitByte byte).scope = d.scope := rfl

@[simp] theorem scope_emitOp (op : OpCode) : (d.emitOp op).scope = d.scope := rfl

@[simp] theorem scope_emitOpByte (op : OpCode) (operand : UInt8) :
    (d.emitOpByte op operand).scope = d.scope := rfl

@[simp] theorem scope_emitOps (ops : List OpCode) : (ops.foldl emitOp d).scope = d.scope := by
  induction ops generalizing d with
  | nil => rfl
  | cons op ops ih => exact ih (d.emitOp op)

@[simp] theorem scope_emitJump (op : OpCode) : (d.emitJump op).2.scope = d.scope := rfl

@[simp] theorem scope_patchJump (placeholder : Nat) : (d.patchJump placeholder).scope = d.scope := by
  rw [patchJump]
  split
  · rfl
  · exact scope_failAtPrevious d _

@[simp] theorem scope_emitLoop (target : Nat) : (d.emitLoop target).scope = d.scope := by
  rw [emitLoop]
  split
  · rfl
  · exact scope_failAtPrevious (d.emitOp .loop) _

@[simp] theorem scope_addConstant (value : Value) : (d.addConstant value).2.scope = d.scope := by
  obtain ⟨constants, panicking, diagnostics, heq⟩ := exists_addConstant_eq d value
  rw [heq]

@[simp] theorem scope_emitConstant (value : Value) : (d.emitConstant value).scope = d.scope :=
  scope_addConstant d value

@[simp] theorem scope_stringConstant (text : String) :
    (d.stringConstant text).2.scope = d.scope := by
  obtain ⟨_, _, _, _, _, heq⟩ := exists_stringConstant_eq d text
  rw [heq]

@[simp] theorem scope_synchronize : d.synchronize.scope = d.scope := by
  rw [synchronize]
  generalize d.ahead = bound
  suffices h : ∀ e : Draft, (seekFooting bound e).scope = e.scope from h _
  intro e
  induction bound generalizing e with
  | nil => rfl
  | cons t bound ih =>
    rw [seekFooting]
    split
    · rfl
    · rw [ih, scope_advance]

theorem scope_iterate_advance (count : Nat) : (advance^[count] d).scope = d.scope :=
  Function.Iterate.rec (fun e : Draft => e.scope = d.scope) rfl
    (fun e h => (scope_advance e).trans h) count

theorem scope_skip {pass : Draft → Draft} (hpass : ∀ e, ∃ count, pass e = advance^[count] e) :
    (d.skip pass).scope = d.scope := by
  obtain ⟨count, heq⟩ := hpass (d.failAtPrevious .nestingTooDeep)
  rw [skip, heq]
  exact (scope_iterate_advance _ count).trans (scope_failAtPrevious d _)

@[simp] theorem scope_skipBlock : d.skipBlock.scope = d.scope :=
  scope_skip d fun e => exists_passBlock _ _ e

@[simp] theorem scope_skipStatement : d.skipStatement.scope = d.scope :=
  scope_skip d fun e => exists_passStatement _ _ _ e

/-! ### Plain changes -/

/-- A change that leaves the scope as it is and does not stall. -/
structure Plain (d d' : Draft) : Prop where
  scope : d'.scope = d.scope
  steps : Steps false d d'

theorem Plain.trans {d d' d'' : Draft} (h : d.Plain d') (h' : d'.Plain d'') : d.Plain d'' :=
  ⟨h'.scope.trans h.scope, h.steps.trans h'.steps⟩

theorem plain_failAtPrevious (problem : Problem) : d.Plain (d.failAtPrevious problem) :=
  ⟨d.scope_failAtPrevious problem, steps_failAtPrevious d problem⟩

theorem plain_failAtCurrent (problem : Problem) : d.Plain (d.failAtCurrent problem) :=
  ⟨d.scope_failAtCurrent problem, steps_failAtCurrent d problem⟩

theorem plain_advance : d.Plain d.advance := ⟨d.scope_advance, steps_advance d⟩

theorem plain_expect (kind : TokenKind) (what : Expectation) : d.Plain (d.expect kind what) :=
  ⟨d.scope_expect kind what, steps_expect d kind what⟩

theorem plain_emitOp (op : OpCode) : d.Plain (d.emitOp op) := ⟨d.scope_emitOp op, steps_emitOp d op⟩

theorem plain_emitOpByte (op : OpCode) (operand : UInt8) : d.Plain (d.emitOpByte op operand) :=
  ⟨d.scope_emitOpByte op operand, steps_emitOpByte d op operand⟩

theorem plain_emitOps (ops : List OpCode) : d.Plain (ops.foldl emitOp d) :=
  ⟨d.scope_emitOps ops, steps_emitOps d ops⟩

theorem plain_emitJump (op : OpCode) : d.Plain (d.emitJump op).2 :=
  ⟨d.scope_emitJump op, steps_emitJump d op⟩

theorem plain_patchJump (placeholder : Nat) : d.Plain (d.patchJump placeholder) :=
  ⟨d.scope_patchJump placeholder, steps_patchJump d placeholder⟩

/-- A jump that lands where the value tested for it is dropped. -/
theorem plain_land (placeholder : Nat) : d.Plain ((d.patchJump placeholder).emitOp .pop) :=
  (d.plain_patchJump placeholder).trans (plain_emitOp _ .pop)

theorem plain_emitLoop (target : Nat) : d.Plain (d.emitLoop target) :=
  ⟨d.scope_emitLoop target, steps_emitLoop d target⟩

theorem plain_emitConstant (value : Value) : d.Plain (d.emitConstant value) :=
  ⟨d.scope_emitConstant value, steps_emitConstant d value⟩

theorem plain_stringConstant (text : String) : d.Plain (d.stringConstant text).2 :=
  ⟨d.scope_stringConstant text, steps_stringConstant d text⟩

theorem plain_synchronize : d.Plain d.synchronize := ⟨d.scope_synchronize, steps_synchronize d⟩

theorem plain_skipBlock : d.Plain d.skipBlock := ⟨d.scope_skipBlock, steps_skipBlock d⟩

theorem plain_skipStatement : d.Plain d.skipStatement :=
  ⟨d.scope_skipStatement, steps_skipStatement d⟩

/-! ### What changes the scope -/

@[simp] theorem scope_beginScope : d.beginScope.scope = d.scope.enter := rfl

@[simp] theorem scope_endScope : d.endScope.scope = d.scope.leave := by
  rw [endScope]
  generalize d.scope.size - d.scope.leave.size = count
  induction count with
  | zero => rfl
  | succ count ih => exact ih

/-- After a declaration the scope is settled as soon as a local is marked. -/
theorem settled_declareLocal {limit : Nat} {d : Draft} (h : d.scope.Settled limit)
    (hlocal : 1 ≤ d.scope.depth) (name : String) :
    (d.declareLocal name).scope.depth = d.scope.depth ∧
      (d.declareLocal name).scope.complete.Settled limit := by
  rw [declareLocal]
  split
  · next hdeclare => exact h.declare hlocal hdeclare
  · rw [scope_failAtPrevious]
    exact ⟨rfl, h.complete hlocal⟩

end Draft

end Lox
