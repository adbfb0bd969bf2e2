import Lox.Compilation.Translation

/-!
# The locals of open scopes

While a source is compiled its locals are kept in one list, each with its depth. Here that list is
given by the names in each open scope: `LocalScope.ofScopes`. Every operation on the list is then an
operation on the scopes.

At most one local is *pending*, declared but not yet initialized; it is the latest.

## Main definitions

* `LocalScope.localsOf`: the list of the locals of scopes.
* `LocalScope.ofScopes`: the state that scopes and a pending local make up.

## Main results

* `LocalScope.resolve_ofScopes`, `LocalScope.declare_ofScopes`: looking names up and declaring them.
* `LocalScope.complete_ofScopes`, `LocalScope.enter_ofScopes`, `LocalScope.leave_ofScopes`: the other
  changes.
-/

namespace Lox

namespace LocalScope

/-- The locals of the scopes, all of them initialized, each at the depth of its scope. -/
def localsOf : Scopes → List Local
  | [] => []
  | scope :: outer => scope.map (⟨·, some (outer.length + 1)⟩) ++ localsOf outer

/-- The state in which the scopes are open and a local may be pending. -/
def ofScopes (limit : Nat) (scopes : Scopes) (pending : Option String) : LocalScope :=
  ⟨pending.toList.map (⟨·, none⟩) ++ localsOf scopes, scopes.length, limit⟩

variable {limit : Nat} {scopes outer : Scopes} {scope : List String} {pending : Option String}
  {name : String}

/-! ### The list of locals -/

theorem map_name_localsOf (scopes : Scopes) : (localsOf scopes).map Local.name = scopes.names := by
  induction scopes with
  | nil => rfl
  | cons scope outer ih =>
    rw [localsOf, List.map_append, ih, List.map_map]
    simp [Scopes.names, Function.comp_def]

theorem length_localsOf (scopes : Scopes) : (localsOf scopes).length = scopes.names.length := by
  rw [← map_name_localsOf, List.length_map]

/-- No local is deeper than the innermost scope, and none is global. -/
theorem depth_of_mem_localsOf {l : Local} (h : l ∈ localsOf scopes) :
    ∃ depth, l.depth = some depth ∧ 0 < depth ∧ depth ≤ scopes.length := by
  induction scopes with
  | nil => simp [localsOf] at h
  | cons scope outer ih =>
    rw [localsOf, List.mem_append, List.mem_map] at h
    rcases h with ⟨name, -, rfl⟩ | h
    · exact ⟨outer.length + 1, rfl, Nat.succ_pos _, Nat.le_refl _⟩
    · obtain ⟨depth, heq, hpos, hle⟩ := ih h
      exact ⟨depth, heq, hpos, Nat.le_succ_of_le hle⟩

@[simp] theorem size_ofScopes (limit : Nat) (scopes : Scopes) (pending : Option String) :
    (ofScopes limit scopes pending).size = pending.toList.length + scopes.names.length := by
  simp [size, ofScopes, length_localsOf]

@[simp] theorem isGlobal_ofScopes (limit : Nat) (scopes : Scopes) (pending : Option String) :
    (ofScopes limit scopes pending).isGlobal = decide (scopes = []) := by
  cases scopes <;> simp [isGlobal, ofScopes]

/-! ### Names -/

theorem slotOf_eq_ok {locals : List Local} (h : ∀ l ∈ locals, l.depth.isSome) :
    slotOf name locals = .ok (slot? name (locals.map Local.name)) := by
  induction locals with
  | nil => rfl
  | cons l locals ih =>
    rw [List.map_cons, slotOf, slot?, List.length_map, if_pos (h l (List.mem_cons_self ..)),
      ih fun l' hl' => h l' (List.mem_cons_of_mem _ hl')]
    split <;> rfl

/-- A name stands for the innermost local of that name. The name of the pending local cannot be
used. -/
theorem resolve_ofScopes (limit : Nat) (scopes : Scopes) (pending : Option String)
    (name : String) :
    (ofScopes limit scopes pending).resolve name =
      if pending = some name then .error .readInOwnInitializer
      else .ok (slot? name scopes.names) := by
  have houter : slotOf name (localsOf scopes) = .ok (slot? name scopes.names) := by
    rw [slotOf_eq_ok, map_name_localsOf]
    intro l hl
    obtain ⟨depth, hdepth, -⟩ := depth_of_mem_localsOf hl
    rw [hdepth, Option.isSome_some]
  cases pending with
  | none => simpa [resolve, ofScopes] using houter
  | some other =>
    by_cases hname : other = name
    · simp [resolve, ofScopes, slotOf, hname]
    · simpa [resolve, ofScopes, slotOf, hname] using houter

/-- A name has a slot exactly when there is a local of that name. -/
theorem slot?_eq_none_iff {names : List String} : slot? name names = none ↔ name ∉ names := by
  induction names with
  | nil => simp [slot?]
  | cons other names ih =>
    rw [slot?]
    by_cases hname : other = name
    · simp [hname]
    · simp [hname, ih, Ne.symm hname]

theorem slot?_lt {names : List String} {slot : Nat} (h : slot? name names = some slot) :
    slot < names.length := by
  induction names with
  | nil => simp [slot?] at h
  | cons other names ih =>
    rw [slot?] at h
    split at h
    · rw [← Option.some.inj h]
      exact Nat.lt_succ_self _
    · exact Nat.lt_succ_of_lt (ih h)

/-! ### Changes -/

/-- The locals of the innermost scope come first. -/
theorem takeWhile_isInnermost (limit : Nat) (scope : List String) (outer : Scopes) :
    (ofScopes limit (scope :: outer) none).locals.takeWhile
        (ofScopes limit (scope :: outer) none).isInnermost =
      scope.map (⟨·, some (outer.length + 1)⟩) := by
  have houter : (localsOf outer).takeWhile
      (ofScopes limit (scope :: outer) none).isInnermost = [] := by
    cases hlocals : localsOf outer with
    | nil => rfl
    | cons l locals =>
      obtain ⟨depth, hdepth, -, hle⟩ :=
        @depth_of_mem_localsOf outer l (by simp [hlocals])
      have hinnermost : (ofScopes limit (scope :: outer) none).isInnermost l = false := by
        rw [isInnermost, hdepth]
        exact decide_eq_false (Nat.not_le_of_lt (Nat.lt_succ_of_le hle))
      exact List.takeWhile_cons_of_neg (Bool.eq_false_iff.mp hinnermost)
  have hscope : ∀ l ∈ scope.map (fun name => (⟨name, some (outer.length + 1)⟩ : Local)),
      (ofScopes limit (scope :: outer) none).isInnermost l := by
    intro l hl
    obtain ⟨name, -, rfl⟩ := List.mem_map.mp hl
    simp [isInnermost, ofScopes]
  have hlocals : (ofScopes limit (scope :: outer) none).locals =
      scope.map (⟨·, some (outer.length + 1)⟩) ++ localsOf outer := rfl
  rw [hlocals, List.takeWhile_append_of_pos hscope, houter, List.append_nil]

/-- Declaring fails for a name that the innermost scope has, and at the limit. -/
theorem declare_ofScopes (limit : Nat) (scope : List String) (outer : Scopes) (name : String) :
    (ofScopes limit (scope :: outer) none).declare name =
      if name ∈ scope then .error .redeclared
      else if limit ≤ (Scopes.names (scope :: outer)).length then .error .tooManyLocals
      else .ok (ofScopes limit (scope :: outer) (some name)) := by
  have hany : ((scope.map fun name => (⟨name, some (outer.length + 1)⟩ : Local)).any
      (·.name == name)) = decide (name ∈ scope) := by
    rw [List.any_map, Bool.eq_iff_iff, List.any_eq_true, decide_eq_true_eq]
    constructor
    · rintro ⟨other, hmem, heq⟩
      exact eq_of_beq heq ▸ hmem
    · exact fun hmem => ⟨name, hmem, beq_self_eq_true name⟩
  rw [declare, takeWhile_isInnermost, hany, size_ofScopes]
  simp [ofScopes]

theorem complete_ofScopes (limit : Nat) (scope : List String) (outer : Scopes) (name : String) :
    (ofScopes limit (scope :: outer) (some name)).complete =
      ofScopes limit ((name :: scope) :: outer) none := by
  simp [complete, ofScopes, localsOf]

theorem enter_ofScopes (limit : Nat) (scopes : Scopes) :
    (ofScopes limit scopes none).enter = ofScopes limit ([] :: scopes) none := by
  simp [enter, ofScopes, localsOf]

theorem leave_ofScopes (limit : Nat) (scope : List String) (outer : Scopes) :
    (ofScopes limit (scope :: outer) none).leave = ofScopes limit outer none := by
  have houter : (localsOf outer).dropWhile (fun l => !l.depth.any (· ≤ outer.length)) =
      localsOf outer := by
    cases hlocals : localsOf outer with
    | nil => rfl
    | cons l locals =>
      obtain ⟨depth, hdepth, -, hle⟩ :=
        @depth_of_mem_localsOf outer l (by simp [hlocals])
      exact List.dropWhile_cons_of_neg (by simp [hdepth, hle])
  have hscope : ∀ l ∈ scope.map (fun name => (⟨name, some (outer.length + 1)⟩ : Local)),
      !l.depth.any (· ≤ outer.length) := by
    intro l hl
    obtain ⟨name, -, rfl⟩ := List.mem_map.mp hl
    simp
  simp only [leave, ofScopes, localsOf, Option.toList_none, List.map_nil, List.nil_append,
    List.length_cons, Nat.add_sub_cancel]
  rw [List.dropWhile_append_of_pos hscope, houter]

end LocalScope

/-! ### After a piece of source -/

/-- Declarations leave the outer scopes as they are. -/
theorem Decl.exists_scopesAfterAll (decls : List Decl) (scope : List String) (outer : Scopes) :
    ∃ scope', Decl.scopesAfterAll (scope :: outer) decls = scope' :: outer := by
  induction decls generalizing scope with
  | nil => exact ⟨scope, rfl⟩
  | cons decl decls ih =>
    cases decl with
    | var name value => exact ih (name :: scope)
    | statement inner => exact ih scope

/-- At the top level there are no locals. -/
theorem Decl.scopesAfterAll_nil (decls : List Decl) : Decl.scopesAfterAll [] decls = [] := by
  induction decls with
  | nil => rfl
  | cons decl decls ih =>
    cases decl with
    | var | statement => exact ih

/-- The first clause of a for statement declares at most one local in the innermost scope. -/
theorem ForInit.exists_scopesAfter (first : ForInit) (scope : List String) (outer : Scopes) :
    ∃ scope', first.scopesAfter (scope :: outer) = scope' :: outer := by
  cases first with
  | none | expression => exact ⟨scope, rfl⟩
  | var name value => exact ⟨name :: scope, rfl⟩

end Lox
