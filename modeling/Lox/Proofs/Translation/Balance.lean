import Lox.Compilation.Requirements
import Lox.Proofs.Bytecode.Heights
import Lox.Proofs.Draft.Scopes
import Lox.Proofs.Pools

/-!
# The height of the stack in compiled code

The code of an expression adds one value to the stack. That of a statement leaves the height as it
is, and that of a declaration adds a value if it declares a local. So while compiled code runs, the
height is at least the number of locals alive, and the slot of each of them is below it.

## Main results

* `Expr.balanced`, `Stmt.balanced`, `Decl.balancedAll`: the code of a tree is balanced.
-/

namespace Lox

variable {constants : Pool} {scopes : Scopes} {pool : Pool} {height : Nat}

/-! ### Names -/

theorem Instruction.sound_constant {op : OpCode} (hkind : op.operand = .constant) {k : Nat}
    {x : Datum} (hget : constants[k]? = some x) (htakes : op.takes ≤ height)
    (hname : op.isGlobal → ∃ text, x = .text text) : Sound constants height ⟨op, k⟩ where
  op := by
    rintro rfl
    exact absurd hkind (by decide)
  takes := htakes
  none hnone := absurd (hkind.symm.trans hnone) nofun
  constant _ := (List.getElem?_eq_some_iff.mp hget).1
  name hglobal := by
    obtain ⟨text, rfl⟩ := hname hglobal
    exact ⟨text, hget⟩
  slot hslot := absurd (hkind.symm.trans hslot) nofun

theorem Instruction.sound_slot {op : OpCode} (hkind : op.operand = .slot) {k : Nat}
    (hlt : k < height) (hsize : k < 256) (htakes : op.takes ≤ height) :
    Sound constants height ⟨op, k⟩ where
  op := by
    rintro rfl
    exact absurd hkind (by decide)
  takes := htakes
  none hnone := absurd (hkind.symm.trans hnone) nofun
  constant hconstant := absurd (hkind.symm.trans hconstant) nofun
  name hname := absurd (hkind.symm.trans (OpCode.operand_of_isGlobal hname)) nofun
  slot _ := ⟨hlt, hsize⟩

/-- The use of a name. -/
theorem balanced_nameInstruction {name : String} {ofLocal ofGlobal : OpCode}
    (hlocal : ofLocal.operand = .slot) (hglobal : ofGlobal.operand = .constant)
    (hconstants : pool.addAll (nameConstants scopes name) <+: constants)
    (hheight : scopes.names.length ≤ height) (hlimit : scopes.names.length ≤ 256)
    (htakes : ofLocal.takes ≤ height ∧ ofGlobal.takes ≤ height)
    (hafter : ofLocal.heightAfter height = ofGlobal.heightAfter height) :
    Balanced constants height (ofGlobal.heightAfter height)
      [nameInstruction scopes pool name ofLocal ofGlobal] := by
  rw [nameInstruction]
  cases hslot : slot? name scopes.names with
  | some slot =>
    have hlt := LocalScope.slot?_lt hslot
    rw [← hafter]
    refine Balanced.single ?_ (by rw [Instruction.isJump, hlocal]; rfl)
    exact Instruction.sound_slot hlocal (by omega) (by omega) htakes.1
  | none =>
    have hmem : name ∉ scopes.names := LocalScope.slot?_eq_none_iff.mp hslot
    rw [nameConstants, if_neg hmem] at hconstants
    refine Balanced.single ?_ (by rw [Instruction.isJump, hglobal]; rfl)
    exact Instruction.sound_constant hglobal (Pool.getElem?_indexOf_of_prefix hconstants) htakes.2
      fun _ => ⟨name, rfl⟩

/-! ### Expressions -/

/-- An instruction without an operand. -/
theorem balanced_op (op : OpCode) {after : Nat} (hkind : op.operand = .none) (hop : op ≠ .halt)
    (htakes : op.takes ≤ height) (hafter : op.heightAfter height = after) :
    Balanced constants height after [⟨op, 0⟩] := by
  rw [← hafter]
  exact .single (Instruction.sound_plain hkind hop htakes) (by rw [Instruction.isJump, hkind]; rfl)

/-- The instructions of an operator replace two values by one. -/
theorem balanced_opCodes (op : BinaryOp) :
    Balanced constants (height + 2) (height + 1) (op.opCodes.map (⟨·, 0⟩)) := by
  have htwo : ∀ op : OpCode, op.operand = .none → op ≠ .halt → op.takes = 2 →
      op.heightAfter (height + 2) = height + 1 →
      Balanced constants (height + 2) (height + 1) [⟨op, 0⟩] := fun op hkind hop htakes hafter =>
    balanced_op op hkind hop (by omega) hafter
  have hnot : Balanced constants (height + 1) (height + 1) [⟨.not, 0⟩] :=
    balanced_op .not rfl nofun (Nat.le_add_left 1 height) rfl
  cases op with
  | equal => exact htwo .equal rfl nofun rfl rfl
  | notEqual => exact (htwo .equal rfl nofun rfl rfl).append hnot
  | greater => exact htwo .greater rfl nofun rfl rfl
  | greaterEqual => exact (htwo .less rfl nofun rfl rfl).append hnot
  | less => exact htwo .less rfl nofun rfl rfl
  | lessEqual => exact (htwo .greater rfl nofun rfl rfl).append hnot
  | add => exact htwo .add rfl nofun rfl rfl
  | subtract => exact htwo .subtract rfl nofun rfl rfl
  | multiply => exact htwo .multiply rfl nofun rfl rfl
  | divide => exact htwo .divide rfl nofun rfl rfl

/-- **Expressions** add their value to the stack. -/
theorem Expr.balanced (e : Expr) (hconstants : pool.addAll (e.constants scopes) <+: constants)
    (hheight : scopes.names.length ≤ height) (hlimit : scopes.names.length ≤ 256) :
    Balanced constants height (height + 1) (e.code scopes pool) := by
  induction e generalizing pool height with
  | literal v =>
    rcases v with - | - | - <;> exact balanced_op _ rfl (by rintro ⟨⟩) (Nat.zero_le _) rfl
  | number x =>
    have hget : constants[pool.length]? = some (.number x) :=
      Pool.getElem?_of_prefix hconstants (by simp [Expr.constants, Pool.add])
    exact .single (Instruction.sound_constant rfl hget (Nat.zero_le _) (by rintro ⟨⟩)) rfl
  | string t =>
    exact .single (Instruction.sound_constant rfl (Pool.getElem?_indexOf_of_prefix hconstants)
      (Nat.zero_le _) (by rintro ⟨⟩)) rfl
  | «variable» name =>
    exact balanced_nameInstruction rfl rfl hconstants hheight hlimit ⟨Nat.zero_le _, Nat.zero_le _⟩
      rfl
  | assign name value ih =>
    refine (ih (Pool.addAll_prefix_right hconstants) hheight).append ?_
    exact balanced_nameInstruction rfl rfl (Pool.addAll_prefix_left hconstants) (by omega) hlimit
      ⟨Nat.le_add_left 1 height, Nat.le_add_left 1 height⟩ rfl
  | group inner ih => exact ih hconstants hheight
  | unary op operand ih =>
    refine (ih hconstants hheight).append ?_
    cases op <;> exact balanced_op _ rfl (by rintro ⟨⟩) (Nat.le_add_left 1 height) rfl
  | binary op left right ihl ihr =>
    refine ((ihl (Pool.addAll_prefix_left hconstants) hheight).append
      (ihr (Pool.addAll_prefix_right hconstants) (by omega))).append (balanced_opCodes op)
  | and left right ihl ihr =>
    exact (ihl (Pool.addAll_prefix_left hconstants) hheight).append
      (ihr (Pool.addAll_prefix_right hconstants) hheight).ifTruthy
  | or left right ihl ihr =>
    exact (ihl (Pool.addAll_prefix_left hconstants) hheight).append
      (ihr (Pool.addAll_prefix_right hconstants) hheight).ifFalsey

/-! ### Statements -/

theorem balanced_pop : Balanced constants (height + 1) height [⟨.pop, 0⟩] :=
  balanced_op .pop rfl nofun (Nat.le_add_left 1 height) rfl

theorem balanced_pops (n : Nat) :
    Balanced constants (height + n) height (List.replicate n ⟨.pop, 0⟩) := by
  induction n with
  | zero => exact .nil
  | succ n ih => exact balanced_pop.append ih

theorem Scopes.length_names_cons (scope : List String) (outer : Scopes) :
    (Scopes.names (scope :: outer)).length = outer.names.length + scope.length := by
  rw [Scopes.names, Scopes.names, List.flatten_cons, List.length_append, Nat.add_comm]

/-- Closing a scope drops its locals. -/
theorem balanced_dropLocals (scope : List String) (outer : Scopes) :
    Balanced constants (Scopes.names (scope :: outer)).length outer.names.length
      (dropLocals (scope :: outer)) := by
  rw [Scopes.length_names_cons]
  exact balanced_pops scope.length

section Statements

variable {limit : Nat}

theorem Expr.balancedOption {e : Option Expr}
    (hconstants : pool.addAll (Expr.constantsOption scopes e) <+: constants)
    (hlimit : scopes.names.length ≤ 256) : ∀ code ∈ e.map (·.code scopes pool),
      Balanced constants scopes.names.length (scopes.names.length + 1) code := by
  intro code hcode
  cases e with
  | none => exact absurd hcode nofun
  | some e =>
    obtain rfl := Option.some.inj hcode
    exact e.balanced hconstants (Nat.le_refl _) hlimit

theorem Expr.balanced_initialCode {value : Option Expr}
    (hconstants : pool.addAll (Expr.constantsOption scopes value) <+: constants)
    (hlimit : scopes.names.length ≤ 256) :
    Balanced constants scopes.names.length (scopes.names.length + 1)
      (Expr.initialCode scopes pool value) := by
  cases value with
  | none => exact balanced_op .nil rfl nofun (Nat.zero_le _) rfl
  | some e => exact e.balanced hconstants (Nat.le_refl _) hlimit

/-- The value of a local stays on the stack. -/
theorem Decl.balancedVar (hle : limit ≤ 256) {name : String} {value : Option Expr}
    (hconstants : pool.addAll (Decl.varConstants scopes name value) <+: constants)
    (hscoped : scopes.CanDeclare limit name value) (hlimit : scopes.names.length ≤ 256) :
    Balanced constants scopes.names.length (scopes.declare name).names.length
      (Decl.varCode scopes pool name value) ∧ (scopes.declare name).names.length ≤ 256 := by
  rw [Decl.varConstants] at hconstants
  rw [Decl.varCode]
  cases scopes with
  | nil =>
    rw [if_pos rfl]
    have hname := Pool.addAll_prefix_left hconstants
    have hsound : Instruction.Sound constants 1 ⟨.defineGlobal, pool.indexOf name⟩ :=
      Instruction.sound_constant rfl (Pool.getElem?_indexOf_of_prefix hname) (Nat.le_refl 1)
        fun _ => ⟨name, rfl⟩
    exact ⟨(Expr.balanced_initialCode (Pool.addAll_prefix_right hconstants) hlimit).append
      (.single hsound rfl), hlimit⟩
  | cons scope outer =>
    rw [if_neg nofun]
    have hlength : (Scopes.names ((name :: scope) :: outer)).length =
        (Scopes.names (scope :: outer)).length + 1 := by
      rw [Scopes.length_names_cons, Scopes.length_names_cons]
      rfl
    have hroom := (hscoped nofun).2.2
    refine ⟨?_, by rw [Scopes.declare, hlength]; omega⟩
    rw [Scopes.declare, hlength]
    exact Expr.balanced_initialCode hconstants hlimit

theorem ForInit.balanced (hle : limit ≤ 256) {first : ForInit}
    (hconstants : pool.addAll (first.constants scopes) <+: constants)
    (hscoped : first.WellScoped limit scopes) (hlimit : scopes.names.length ≤ 256) :
    Balanced constants scopes.names.length (first.scopesAfter scopes).names.length
      (first.code scopes pool) ∧ (first.scopesAfter scopes).names.length ≤ 256 := by
  cases first with
  | none => exact ⟨.nil, hlimit⟩
  | var name value => exact Decl.balancedVar hle hconstants hscoped hlimit
  | expression e => exact ⟨(e.balanced hconstants (Nat.le_refl _) hlimit).append balanced_pop, hlimit⟩

mutual

/-- **Statements** leave the height as it is. -/
theorem Stmt.balanced (hle : limit ≤ 256) (st : Stmt) {scopes : Scopes} {pool : Pool}
    (hconstants : pool.addAll (st.constants scopes) <+: constants)
    (hscoped : st.WellScoped limit scopes) (hlimit : scopes.names.length ≤ 256) :
    Balanced constants scopes.names.length scopes.names.length (st.code scopes pool) := by
  match st with
  | .expression e => exact (e.balanced hconstants (Nat.le_refl _) hlimit).append balanced_pop
  | .print e =>
    exact (e.balanced hconstants (Nat.le_refl _) hlimit).append
      (balanced_op .print rfl nofun (Nat.le_add_left 1 _) rfl)
  | .block ds =>
    obtain ⟨scope, hscope⟩ := Decl.exists_scopesAfterAll ds [] scopes
    have hbody := Decl.balancedAll hle ds hconstants hscoped hlimit
    rw [hscope] at hbody
    rw [Stmt.code, hscope]
    exact hbody.append (balanced_dropLocals scope scopes)
  | .ifThen e s =>
    exact (e.balanced (Pool.addAll_prefix_left hconstants) (Nat.le_refl _) hlimit).append
      ((Stmt.balanced hle s (Pool.addAll_prefix_right hconstants) hscoped hlimit).choice .nil)
  | .ifElse e s s' =>
    have hleft := Pool.addAll_prefix_left hconstants
    have hother := Pool.addAll_prefix_right hconstants
    rw [Pool.addAll_append] at hother
    exact (e.balanced (Pool.addAll_prefix_left hleft) (Nat.le_refl _) hlimit).append
      ((Stmt.balanced hle s (Pool.addAll_prefix_right hleft) hscoped.1 hlimit).choice
        (Stmt.balanced hle s' hother hscoped.2 hlimit))
  | .whileLoop e s =>
    refine .repeating ?_ nofun (Stmt.balanced hle s (Pool.addAll_prefix_right hconstants) hscoped hlimit)
    intro code hcode
    obtain rfl := Option.some.inj hcode
    exact e.balanced (Pool.addAll_prefix_left hconstants) (Nat.le_refl _) hlimit
  | .forLoop first condition increment s =>
    obtain ⟨scope, hscope⟩ := first.exists_scopesAfter [] scopes
    rw [Stmt.constants] at hconstants
    have hbody := Pool.addAll_prefix_right hconstants
    have hclauses := Pool.addAll_prefix_left hconstants
    have hincrement := Pool.addAll_prefix_right hclauses
    have hheads := Pool.addAll_prefix_left hclauses
    rw [Pool.addAll_append, Pool.addAll_append] at hbody
    rw [Pool.addAll_append] at hincrement
    obtain ⟨hfirst, hlimit'⟩ :=
      ForInit.balanced hle (Pool.addAll_prefix_left hheads) hscoped.1 hlimit
    refine (hfirst.append (.repeating (Expr.balancedOption (Pool.addAll_prefix_right hheads) hlimit')
      (Expr.balancedOption hincrement hlimit') (Stmt.balanced hle s hbody hscoped.2 hlimit'))).append ?_
    rw [hscope]
    exact balanced_dropLocals scope scopes

/-- **Declarations** -/
theorem Decl.balanced (hle : limit ≤ 256) (decl : Decl) {scopes : Scopes} {pool : Pool}
    (hconstants : pool.addAll (decl.constants scopes) <+: constants)
    (hscoped : decl.WellScoped limit scopes) (hlimit : scopes.names.length ≤ 256) :
    Balanced constants scopes.names.length (decl.scopesAfter scopes).names.length
      (decl.code scopes pool) ∧ (decl.scopesAfter scopes).names.length ≤ 256 := by
  match decl with
  | .var name value => exact Decl.balancedVar hle hconstants hscoped hlimit
  | .statement s => exact ⟨Stmt.balanced hle s hconstants hscoped hlimit, hlimit⟩

/-- **Declarations** leave the locals that they have declared on the stack. -/
theorem Decl.balancedAll (hle : limit ≤ 256) (decls : List Decl) {scopes : Scopes} {pool : Pool}
    (hconstants : pool.addAll (Decl.constantsAll scopes decls) <+: constants)
    (hscoped : Decl.WellScopedAll limit scopes decls) (hlimit : scopes.names.length ≤ 256) :
    Balanced constants scopes.names.length (Decl.scopesAfterAll scopes decls).names.length
      (Decl.codeAll scopes decls pool) := by
  match decls with
  | [] => exact .nil
  | decl :: decls =>
    obtain ⟨hfirst, hlimit'⟩ := Decl.balanced hle decl (Pool.addAll_prefix_left hconstants) hscoped.1 hlimit
    exact hfirst.append
      (Decl.balancedAll hle decls (Pool.addAll_prefix_right hconstants) hscoped.2 hlimit')

end

end Statements

end Lox
