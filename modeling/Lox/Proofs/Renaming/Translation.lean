import Lox.Compilation.Renaming
import Lox.Proofs.Draft.Scopes

/-!
# Translating renamed programs

The translation looks at the name of a local only to find the local, and at the name of a global for
the text of a constant. So different names for locals, as long as they are different, change neither
the code nor the constants, nor whether a program keeps to the requirements.

## Main definitions

* `Scopes.rename`: the scopes with the names of the locals changed.

## Main results

* `Decl.translation_renameAll`: the constants and the code of renamed declarations.
* `Accepted.rename`: a renamed program is accepted if the program is.
-/

namespace Lox

variable {f : String → String}

/-! ### Heights -/

theorem Expr.height_rename (f : String → String) (e : Expr) : (e.rename f).height = e.height := by
  induction e with
  | literal | number | string | «variable» => rfl
  | assign name value ih => exact congrArg (· + 1) ih
  | group inner ih => exact congrArg (· + 1) ih
  | unary op operand ih => exact congrArg (· + 1) ih
  | binary op left right ihl ihr => simp only [Expr.rename, Expr.height, ihl, ihr]
  | and left right ihl ihr => simp only [Expr.rename, Expr.height, ihl, ihr]
  | or left right ihl ihr => simp only [Expr.rename, Expr.height, ihl, ihr]

theorem Expr.heightOption_rename (f : String → String) (e : Option Expr) :
    Expr.heightOption (e.map (·.rename f)) = Expr.heightOption e := by
  cases e with
  | none => rfl
  | some e => exact e.height_rename f

theorem ForInit.height_rename (f : String → String) (first : ForInit) :
    (first.rename f).height = first.height := by
  cases first with
  | none => rfl
  | var name value => exact Expr.heightOption_rename f value
  | expression e => exact e.height_rename f

mutual

theorem Stmt.height_rename (f : String → String) (s : Stmt) : (s.rename f).height = s.height := by
  match s with
  | .expression e | .print e => exact e.height_rename f
  | .block ds => exact congrArg (· + 1) (Decl.heightAll_rename f ds)
  | .ifThen e s | .whileLoop e s =>
    simp only [Stmt.rename, Stmt.height, e.height_rename, Stmt.height_rename f s]
  | .ifElse e s s' =>
    simp only [Stmt.rename, Stmt.height, e.height_rename, Stmt.height_rename f s,
      Stmt.height_rename f s']
  | .forLoop first condition increment s =>
    simp only [Stmt.rename, Stmt.height, first.height_rename, Expr.heightOption_rename,
      Stmt.height_rename f s]

theorem Decl.height_rename (f : String → String) (d : Decl) : (d.rename f).height = d.height := by
  match d with
  | .var name value => exact Expr.heightOption_rename f value
  | .statement s => exact Stmt.height_rename f s

theorem Decl.heightAll_rename (f : String → String) (ds : List Decl) :
    Decl.heightAll (Decl.renameAll f ds) = Decl.heightAll ds := by
  match ds with
  | [] => rfl
  | d :: ds =>
    simp only [Decl.renameAll, Decl.heightAll, Decl.height_rename f d, Decl.heightAll_rename f ds]

end

/-! ### Scopes -/

/-- The scopes with the names of the locals changed. -/
def Scopes.rename (f : String → String) (scopes : Scopes) : Scopes := scopes.map (List.map f)

section Scopes

variable (f : String → String) (scopes : Scopes)

theorem Scopes.names_rename : (scopes.rename f).names = scopes.names.map f :=
  List.map_flatten.symm

theorem Scopes.rename_eq_nil_iff : scopes.rename f = [] ↔ scopes = [] := List.map_eq_nil_iff

theorem Scopes.declare_rename (name : String) :
    (scopes.rename f).declare (f name) = (scopes.declare name).rename f := by
  cases scopes <;> rfl

theorem Scopes.innermostSize_rename : (scopes.rename f).innermostSize = scopes.innermostSize := by
  cases scopes with
  | nil => rfl
  | cons scope outer => exact List.length_map f

theorem dropLocals_rename : dropLocals (scopes.rename f) = dropLocals scopes := by
  rw [dropLocals, dropLocals, Scopes.innermostSize_rename]

theorem ForInit.scopesAfter_rename (first : ForInit) :
    (first.rename f).scopesAfter (scopes.rename f) = (first.scopesAfter scopes).rename f := by
  cases first with
  | var name value => exact Scopes.declare_rename f scopes name
  | none | expression e => rfl

theorem Decl.scopesAfter_rename (d : Decl) :
    (d.rename f).scopesAfter (scopes.rename f) = (d.scopesAfter scopes).rename f := by
  cases d with
  | var name value => exact Scopes.declare_rename f scopes name
  | statement s => rfl

theorem Decl.scopesAfterAll_rename (ds : List Decl) :
    Decl.scopesAfterAll (scopes.rename f) (Decl.renameAll f ds) =
      (Decl.scopesAfterAll scopes ds).rename f := by
  induction ds generalizing scopes with
  | nil => rfl
  | cons d ds ih =>
    show Decl.scopesAfterAll ((d.rename f).scopesAfter (scopes.rename f)) (Decl.renameAll f ds) = _
    rw [Decl.scopesAfter_rename, ih]
    rfl

theorem Expr.names_rename (e : Expr) : (e.rename f).names = e.names.map f := by
  induction e with
  | literal | number | string | «variable» => rfl
  | assign name value ih => exact congrArg (f name :: ·) ih
  | group inner ih => exact ih
  | unary op operand ih => exact ih
  | binary op left right ihl ihr => simp only [Expr.rename, Expr.names, ihl, ihr, List.map_append]
  | and left right ihl ihr => simp only [Expr.rename, Expr.names, ihl, ihr, List.map_append]
  | or left right ihl ihr => simp only [Expr.rename, Expr.names, ihl, ihr, List.map_append]

theorem Expr.namesOption_rename (e : Option Expr) :
    Expr.namesOption (e.map (·.rename f)) = (Expr.namesOption e).map f := by
  cases e with
  | none => rfl
  | some e => exact e.names_rename f

end Scopes

section Injective

variable (hf : Function.Injective f)

include hf

theorem Scopes.mem_names_rename {scopes : Scopes} {name : String} :
    f name ∈ (scopes.rename f).names ↔ name ∈ scopes.names := by
  rw [Scopes.names_rename, List.mem_map_of_injective hf]

theorem slot?_rename (name : String) (names : List String) :
    slot? (f name) (names.map f) = slot? name names := by
  induction names with
  | nil => rfl
  | cons other outer ih => simp only [List.map_cons, slot?, hf.eq_iff, ih, List.length_map]

/-! ### Requirements on scopes -/

theorem Scopes.CanDeclare.rename {limit : Nat} {scopes : Scopes} {name : String} {value : Option Expr}
    (h : scopes.CanDeclare limit name value) :
    (scopes.rename f).CanDeclare limit (f name) (value.map (·.rename f)) := by
  intro hopen
  obtain ⟨hfirst, hvalue, hroom⟩ := h (mt (Scopes.rename_eq_nil_iff f scopes).mpr hopen)
  have hhead : (scopes.rename f).headD [] = (scopes.headD []).map f := by cases scopes <;> rfl
  rw [hhead, Expr.namesOption_rename, Scopes.names_rename, List.mem_map_of_injective hf,
    List.mem_map_of_injective hf, List.length_map]
  exact ⟨hfirst, hvalue, hroom⟩

theorem ForInit.WellScoped.rename {limit : Nat} {scopes : Scopes} {first : ForInit}
    (h : first.WellScoped limit scopes) : (first.rename f).WellScoped limit (scopes.rename f) := by
  cases first with
  | var name value => exact Scopes.CanDeclare.rename hf h
  | none | expression e => trivial

end Injective

mutual

theorem Stmt.WellScoped.rename (hf : Function.Injective f) {limit : Nat} (s : Stmt) {scopes : Scopes}
    (h : s.WellScoped limit scopes) : (s.rename f).WellScoped limit (scopes.rename f) := by
  match s with
  | .expression _ | .print _ => trivial
  | .block ds => exact Decl.WellScopedAll.rename hf ds h
  | .ifThen _ s | .whileLoop _ s => exact Stmt.WellScoped.rename hf s h
  | .ifElse _ s s' => exact ⟨Stmt.WellScoped.rename hf s h.1, Stmt.WellScoped.rename hf s' h.2⟩
  | .forLoop first _ _ s =>
    refine ⟨ForInit.WellScoped.rename hf h.1, ?_⟩
    exact ForInit.scopesAfter_rename f ([] :: scopes) first ▸ Stmt.WellScoped.rename hf s h.2

theorem Decl.WellScoped.rename (hf : Function.Injective f) {limit : Nat} (d : Decl) {scopes : Scopes}
    (h : d.WellScoped limit scopes) : (d.rename f).WellScoped limit (scopes.rename f) := by
  match d with
  | .var name value => exact Scopes.CanDeclare.rename hf h
  | .statement s => exact Stmt.WellScoped.rename hf s h

theorem Decl.WellScopedAll.rename (hf : Function.Injective f) {limit : Nat} (ds : List Decl)
    {scopes : Scopes} (h : Decl.WellScopedAll limit scopes ds) :
    Decl.WellScopedAll limit (scopes.rename f) (Decl.renameAll f ds) := by
  match ds with
  | [] => trivial
  | d :: ds =>
    exact ⟨Decl.WellScoped.rename hf d h.1,
      Decl.scopesAfter_rename f scopes d ▸ Decl.WellScopedAll.rename hf ds h.2⟩

end

/-! ### Constants and code -/

section Expressions

variable (hf : Function.Injective f) {scopes : Scopes}

include hf

theorem nameConstants_rename {name : String} (h : name ∉ scopes.names → f name = name) :
    nameConstants (scopes.rename f) (f name) = nameConstants scopes name := by
  rw [nameConstants, nameConstants]
  by_cases hlocal : name ∈ scopes.names
  · rw [if_pos hlocal, if_pos ((Scopes.mem_names_rename hf).mpr hlocal)]
  · rw [if_neg hlocal, if_neg (mt (Scopes.mem_names_rename hf).mp hlocal), h hlocal]

theorem nameInstruction_rename {name : String} (h : name ∉ scopes.names → f name = name)
    (pool : Pool) (ofLocal ofGlobal : OpCode) :
    nameInstruction (scopes.rename f) pool (f name) ofLocal ofGlobal =
      nameInstruction scopes pool name ofLocal ofGlobal := by
  rw [nameInstruction, nameInstruction, Scopes.names_rename, slot?_rename hf]
  cases hslot : slot? name scopes.names with
  | some slot => rfl
  | none =>
    have hglobal : name ∉ scopes.names := LocalScope.slot?_eq_none_iff.mp hslot
    simp only [h hglobal]

theorem Expr.translation_rename_of_names {e : Expr}
    (h : ∀ name ∈ e.names, name ∉ scopes.names → f name = name) :
    (e.rename f).constants (scopes.rename f) = e.constants scopes ∧
      ∀ pool, (e.rename f).code (scopes.rename f) pool = e.code scopes pool := by
  induction e with
  | literal | number | string => exact ⟨rfl, fun _ => rfl⟩
  | «variable» name =>
    have hname := h name List.mem_cons_self
    exact ⟨nameConstants_rename hf hname, fun pool =>
      congrArg (fun i => [i]) (nameInstruction_rename hf hname pool _ _)⟩
  | assign name value ih =>
    have hname := h name List.mem_cons_self
    obtain ⟨hconstants, hcode⟩ := ih fun other hother => h other (List.mem_cons_of_mem _ hother)
    simp [Expr.rename, Expr.constants, Expr.code, nameConstants_rename hf hname, hconstants, hcode,
      nameInstruction_rename hf hname]
  | group inner ih => exact ih h
  | unary op operand ih =>
    obtain ⟨hconstants, hcode⟩ := ih h
    exact ⟨hconstants, fun pool => congrArg (· ++ [(⟨op.opCode, 0⟩ : Instruction)]) (hcode pool)⟩
  | binary op left right ihl ihr =>
    obtain ⟨hconstants, hcode⟩ := ihl fun name hname => h name (List.mem_append_left _ hname)
    obtain ⟨hconstants', hcode'⟩ := ihr fun name hname => h name (List.mem_append_right _ hname)
    simp [Expr.rename, Expr.constants, Expr.code, hconstants, hcode, hconstants', hcode']
  | and left right ihl ihr | or left right ihl ihr =>
    obtain ⟨hconstants, hcode⟩ := ihl fun name hname => h name (List.mem_append_left _ hname)
    obtain ⟨hconstants', hcode'⟩ := ihr fun name hname => h name (List.mem_append_right _ hname)
    simp [Expr.rename, Expr.constants, Expr.code, hconstants, hcode, hconstants', hcode']

/-- **The translation of a renamed expression** is that of the expression, if the names of globals
are left as they are. -/
theorem Expr.translation_rename (e : Expr) (h : ∀ name ∈ Expr.globals scopes e, f name = name) :
    (e.rename f).constants (scopes.rename f) = e.constants scopes ∧
      ∀ pool, (e.rename f).code (scopes.rename f) pool = e.code scopes pool :=
  Expr.translation_rename_of_names hf fun name hname hglobal =>
    h name (List.mem_filter.mpr ⟨hname, decide_eq_true hglobal⟩)

/-- The translation of a renamed expression that may be missing. -/
theorem Expr.translationOption_rename {e : Option Expr}
    (h : ∀ name ∈ Expr.globals scopes e, f name = name) :
    Expr.constantsOption (scopes.rename f) (e.map (·.rename f)) = Expr.constantsOption scopes e ∧
      (∀ pool, Expr.initialCode (scopes.rename f) pool (e.map (·.rename f)) =
        Expr.initialCode scopes pool e) ∧
      ∀ pool, (e.map (·.rename f)).map (·.code (scopes.rename f) pool) =
        e.map (·.code scopes pool) := by
  cases e with
  | none => exact ⟨rfl, fun _ => rfl, fun _ => rfl⟩
  | some e =>
    obtain ⟨hconstants, hcode⟩ := e.translation_rename hf h
    exact ⟨hconstants, hcode, fun pool => congrArg some (hcode pool)⟩

theorem Decl.translationVar_rename {name : String} {value : Option Expr}
    (h : ∀ other ∈ Decl.varGlobals scopes name value, f other = other) :
    Decl.varConstants (scopes.rename f) (f name) (value.map (·.rename f)) =
        Decl.varConstants scopes name value ∧
      ∀ pool, Decl.varCode (scopes.rename f) pool (f name) (value.map (·.rename f)) =
        Decl.varCode scopes pool name value := by
  have hvalue : ∀ other ∈ Expr.globals scopes value, f other = other := fun other hother =>
    h other (List.mem_append_right _ hother)
  obtain ⟨hconstants, hcode, -⟩ := Expr.translationOption_rename hf hvalue
  rw [Decl.varConstants, Decl.varConstants, hconstants]
  simp only [Decl.varCode, Scopes.rename_eq_nil_iff, hcode]
  by_cases hglobal : scopes = []
  · have hname : f name = name := h name (List.mem_append_left _ (by simp [hglobal]))
    simp [hglobal, hname]
  · simp [hglobal]

theorem ForInit.translation_rename {first : ForInit}
    (h : ∀ name ∈ first.globals scopes, f name = name) :
    (first.rename f).constants (scopes.rename f) = first.constants scopes ∧
      ∀ pool, (first.rename f).code (scopes.rename f) pool = first.code scopes pool := by
  cases first with
  | none => exact ⟨rfl, fun _ => rfl⟩
  | var name value => exact Decl.translationVar_rename hf h
  | expression e =>
    obtain ⟨hconstants, hcode⟩ := e.translation_rename hf h
    exact ⟨hconstants, fun pool => congrArg (· ++ [(⟨.pop, 0⟩ : Instruction)]) (hcode pool)⟩

end Expressions

mutual

/-- **The translation of a renamed statement** is that of the statement. -/
theorem Stmt.translation_rename (hf : Function.Injective f) (s : Stmt) {scopes : Scopes}
    (h : ∀ name ∈ s.globals scopes, f name = name) :
    (s.rename f).constants (scopes.rename f) = s.constants scopes ∧
      ∀ pool, (s.rename f).code (scopes.rename f) pool = s.code scopes pool := by
  match s with
  | .expression e =>
    obtain ⟨hconstants, hcode⟩ := e.translation_rename hf h
    exact ⟨hconstants, fun pool => congrArg (· ++ [(⟨.pop, 0⟩ : Instruction)]) (hcode pool)⟩
  | .print e =>
    obtain ⟨hconstants, hcode⟩ := e.translation_rename hf h
    exact ⟨hconstants, fun pool => congrArg (· ++ [(⟨.print, 0⟩ : Instruction)]) (hcode pool)⟩
  | .block ds =>
    obtain ⟨hconstants, hcode⟩ := Decl.translation_renameAll hf ds h
    have hinner : [] :: scopes.rename f = Scopes.rename f ([] :: scopes) := rfl
    simp [Stmt.rename, Stmt.constants, Stmt.code, hinner, hconstants, hcode,
      Decl.scopesAfterAll_rename, dropLocals_rename]
  | .ifThen e s | .whileLoop e s =>
    obtain ⟨hcondition, hcode⟩ := e.translation_rename hf fun name hname =>
      h name (List.mem_append_left _ hname)
    obtain ⟨hbody, hcode'⟩ := Stmt.translation_rename hf s fun name hname =>
      h name (List.mem_append_right _ hname)
    simp [Stmt.rename, Stmt.constants, Stmt.code, hcondition, hcode, hbody, hcode']
  | .ifElse e s s' =>
    rw [Stmt.globals, List.append_assoc] at h
    obtain ⟨hcondition, hcode⟩ := e.translation_rename hf fun name hname =>
      h name (List.mem_append_left _ hname)
    obtain ⟨hbody, hcode'⟩ := Stmt.translation_rename hf s fun name hname =>
      h name (List.mem_append_right _ (List.mem_append_left _ hname))
    obtain ⟨hother, hotherCode⟩ := Stmt.translation_rename hf s' fun name hname =>
      h name (List.mem_append_right _ (List.mem_append_right _ hname))
    simp [Stmt.rename, Stmt.constants, Stmt.code, hcondition, hcode, hbody, hcode', hother, hotherCode]
  | .forLoop first condition increment s =>
    have hinner : [] :: scopes.rename f = Scopes.rename f ([] :: scopes) := rfl
    rw [Stmt.globals] at h
    simp only [List.mem_append] at h
    obtain ⟨hfirst, hcode⟩ := ForInit.translation_rename hf fun name hname =>
      h name (.inl (.inl (.inl hname)))
    obtain ⟨hcondition, -, hcode'⟩ := Expr.translationOption_rename hf fun name hname =>
      h name (.inl (.inl (.inr hname)))
    obtain ⟨hincrement, -, hstepCode⟩ := Expr.translationOption_rename hf fun name hname =>
      h name (.inl (.inr hname))
    obtain ⟨hbody, hbodyCode⟩ := Stmt.translation_rename hf s fun name hname =>
      h name (.inr hname)
    simp only [Stmt.rename, Stmt.constants, Stmt.code, hinner, ForInit.scopesAfter_rename, hfirst,
      hcode, hcondition, hcode', hincrement, hstepCode, hbody, hbodyCode, dropLocals_rename]
    exact ⟨trivial, fun _ => trivial⟩

theorem Decl.translation_rename (hf : Function.Injective f) (d : Decl) {scopes : Scopes}
    (h : ∀ name ∈ d.globals scopes, f name = name) :
    (d.rename f).constants (scopes.rename f) = d.constants scopes ∧
      ∀ pool, (d.rename f).code (scopes.rename f) pool = d.code scopes pool := by
  match d with
  | .var name value => exact Decl.translationVar_rename hf h
  | .statement s => exact Stmt.translation_rename hf s h

/-- **The translation of renamed declarations** is that of the declarations. -/
theorem Decl.translation_renameAll (hf : Function.Injective f) (ds : List Decl) {scopes : Scopes}
    (h : ∀ name ∈ Decl.globalsAll scopes ds, f name = name) :
    Decl.constantsAll (scopes.rename f) (Decl.renameAll f ds) = Decl.constantsAll scopes ds ∧
      ∀ pool, Decl.codeAll (scopes.rename f) (Decl.renameAll f ds) pool =
        Decl.codeAll scopes ds pool := by
  match ds with
  | [] => exact ⟨rfl, fun _ => rfl⟩
  | d :: ds =>
    obtain ⟨hconstants, hcode⟩ := Decl.translation_rename hf d fun name hname =>
      h name (List.mem_append_left _ hname)
    obtain ⟨hconstants', hcode'⟩ := Decl.translation_renameAll hf ds fun name hname =>
      h name (List.mem_append_right _ hname)
    simp [Decl.renameAll, Decl.constantsAll, Decl.codeAll, hconstants, hcode, Decl.scopesAfter_rename,
      hconstants', hcode']

end

/-! ### Programs -/

/-- The translation of a renamed program is that of the program. -/
theorem Decl.programCode_rename (hf : Function.Injective f) {program : List Decl}
    (h : ∀ name ∈ Decl.programGlobals program, f name = name) :
    Decl.programCode (Decl.renameAll f program) = Decl.programCode program ∧
      Decl.programPool (Decl.renameAll f program) = Decl.programPool program := by
  obtain ⟨hconstants, hcode⟩ := Decl.translation_renameAll hf program h
  exact ⟨congrArg (· ++ [(⟨.halt, 0⟩ : Instruction)]) (hcode []), congrArg (Pool.addAll []) hconstants⟩

/-- **A renamed program** is accepted if the program is. -/
theorem Accepted.rename (hf : Function.Injective f) {limits : Limits} {program : List Decl}
    (h : ∀ name ∈ Decl.programGlobals program, f name = name) (haccepted : Accepted limits program) :
    Accepted limits (Decl.renameAll f program) := by
  obtain ⟨hconstants, hcode⟩ := Decl.translation_renameAll hf program h
  refine ⟨Decl.WellScopedAll.rename hf program haccepted.scopes, ?_, ?_, ?_⟩
  · rw [show ([] : Scopes) = Scopes.rename f [] from rfl, hconstants]
    exact haccepted.constants
  · rw [show ([] : Scopes) = Scopes.rename f [] from rfl, hcode]
    exact haccepted.jumps
  · rw [Decl.heightAll_rename]
    exact haccepted.nesting

end Lox
