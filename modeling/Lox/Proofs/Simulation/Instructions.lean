import Lox.Proofs.Bytecode.Heights
import Lox.Proofs.Pools
import Lox.Proofs.Simulation.Machine
import Lox.Semantics.Evaluation

/-!
# Simulating single instructions

What each instruction does to a machine that agrees with a store, next to what the program does at
that place.

## Main definitions

* `Chunk.Holds`: a chunk has some code at an offset.
* `Machine.Leaves`: a machine has come to an offset with a value on top.
* `Machine.Computes`: an execution comes to what an operation on data comes to.

## Main results

* `simulates_unary`, `simulates_binary`: operators.
* `simulates_read`, `simulates_assign`: variables.
-/

namespace Lox

/-! ### Code of a chunk -/

namespace Chunk

variable {c : Chunk} {offset : Nat} {i : Instruction} {code code' : List Instruction}

/-- The chunk has the code at the offset. -/
def Holds (c : Chunk) (offset : Nat) (code : List Instruction) : Prop :=
  ∀ x ∈ withOffsets offset code, c.instruction? x.1 = some x.2

theorem holds_cons : c.Holds offset (i :: code) ↔
    c.instruction? offset = some i ∧ c.Holds (offset + i.size) code := List.forall_mem_cons

theorem holds_singleton : c.Holds offset [i] ↔ c.instruction? offset = some i :=
  List.forall_mem_singleton

theorem holds_append : c.Holds offset (code ++ code') ↔
    c.Holds offset code ∧ c.Holds (offset + codeSize code) code' := by
  rw [Holds, withOffsets_append]
  exact List.forall_mem_append

end Chunk

namespace Machine

variable {c : Chunk} {i : Interner} {scopes : Scopes} {offset least : Nat} {above : List Datum}
  {s : Store} {m : Machine} {x y : Datum}

/-! ### Steps -/

theorem Agrees.step {ins : Instruction} (h : m.Agrees i scopes offset above s)
    (hread : c.instruction? offset = some ins) (hop : ins.op ≠ .halt) :
    m.step c = progress
      (execute c { m with offset := offset + ins.size } ins.op ins.operand ins.operand) := by
  rw [step_of_instruction? (by rwa [h.offset]) hop, h.offset]

/-- An instruction that executes leads to the machine that it makes. -/
theorem Agrees.exists_step {ins : Instruction} {P : Machine → Prop}
    (h : m.Agrees i scopes offset above s) (hread : c.instruction? offset = some ins)
    (hop : ins.op ≠ .halt)
    (hexecute : ∀ m' : Machine, m'.Agrees i scopes (offset + ins.size) above s →
      ∃ next, execute c m' ins.op ins.operand ins.operand = .ok next ∧ P next) :
    ∃ next, m.step c = .running next ∧ P next := by
  obtain ⟨next, hnext, hP⟩ := hexecute _ (h.moved _)
  exact ⟨next, by rw [h.step hread hop, hnext, progress], hP⟩

theorem Agrees.exists_pop (h : m.Agrees i scopes offset (x :: above) s)
    (hread : c.instruction? offset = some ⟨.pop, 0⟩) :
    ∃ next, m.step c = .running next ∧ next.Agrees i scopes (offset + 1) above s := by
  refine h.exists_step hread nofun fun m' hm' => ?_
  obtain ⟨v, hpop, -, hnext⟩ := hm'.pop
  exact ⟨_, by simp only [execute, hpop]; rfl, hnext⟩

theorem Agrees.exists_print (h : m.Agrees i scopes offset (x :: above) s)
    (hread : c.instruction? offset = some ⟨.print, 0⟩) :
    ∃ next, m.step c = .running next ∧
      next.Agrees i scopes (offset + 1) above (s.print x.display) := by
  refine h.exists_step hread nofun fun m' hm' => ?_
  obtain ⟨v, hpop, hv, hnext⟩ := hm'.pop
  have houtput : m'.output.push (v.display m'.world.interner) = (s.print x.display).output := by
    rw [hm'.output, hv.display_eq, Store.print]
  refine ⟨{ m' with stack := m'.stack.pop, output := m'.output.push (v.display m'.world.interner) },
    ?_, { hnext with output := houtput }⟩
  simp only [execute, hpop]
  rfl

theorem Agrees.exists_jump {distance : Nat} (h : m.Agrees i scopes offset above s)
    (hread : c.instruction? offset = some ⟨.jump, distance⟩) :
    ∃ next, m.step c = .running next ∧
      next.Agrees i scopes (offset + 3 + distance) above s := by
  refine h.exists_step hread nofun fun m' hm' => ?_
  refine ⟨_, rfl, ?_⟩
  rw [hm'.offset]
  exact hm'.moved _

theorem Agrees.exists_loop {distance : Nat} (h : m.Agrees i scopes offset above s)
    (hread : c.instruction? offset = some ⟨.loop, distance⟩) (hle : distance ≤ offset + 3) :
    ∃ next, m.step c = .running next ∧
      next.Agrees i scopes (offset + 3 - distance) above s := by
  refine h.exists_step hread nofun fun m' hm' => ?_
  refine ⟨{ m' with offset := m'.offset - distance }, ?_, ?_⟩
  · rw [execute, if_pos (by rwa [hm'.offset])]
    rfl
  · rw [hm'.offset]
    exact hm'.moved _

theorem Agrees.exists_jumpIfFalse {distance : Nat} (h : m.Agrees i scopes offset (x :: above) s)
    (hread : c.instruction? offset = some ⟨.jumpIfFalse, distance⟩) :
    ∃ next, m.step c = .running next ∧
      next.Agrees i scopes (if x.isFalsey then offset + 3 + distance else offset + 3)
        (x :: above) s := by
  refine h.exists_step hread nofun fun m' hm' => ?_
  obtain ⟨v, hpeek, hv⟩ := hm'.peek
  refine ⟨if v.isFalsey then { m' with offset := m'.offset + distance } else m', ?_, ?_⟩
  · simp only [execute, hpeek]
    rfl
  · rw [hv.isFalsey_eq]
    split
    · rw [hm'.offset]
      exact hm'.moved _
    · exact hm'

/-- Instructions that push a value. -/
theorem Agrees.exists_push {ins : Instruction} {v : Value} (h : m.Agrees i scopes offset above s)
    (hread : c.instruction? offset = some ins) (hop : ins.op ≠ .halt) (hv : v.Denotes i x)
    (hexecute : ∀ m', execute c m' ins.op ins.operand ins.operand = .ok (m'.push v)) :
    ∃ next, m.step c = .running next ∧
      next.Agrees i scopes (offset + ins.size) (x :: above) s :=
  h.exists_step hread hop fun m' hm' => ⟨_, hexecute m', hm'.push (hv.mono hm'.interner)⟩

/-! ### Operators -/

/-- The machine has come to an offset, with a value on top of what was there. -/
def Leaves (i : Interner) (scopes : Scopes) (offset : Nat) (above : List Datum) (x : Datum)
    (s : Store) (m : Machine) : Prop := m.Agrees i scopes offset (x :: above) s

/-- An execution comes to what an operation on data comes to. -/
def Computes (P : Datum → Machine → Prop) :
    Except Fault Datum → Except RuntimeError Machine → Prop
  | .ok x, .ok m => P x m
  | .error fault, .error e => e.message = fault.message
  | _, _ => False

theorem Agrees.simulates {ins : Instruction} {r : Except Fault Datum} {above' : List Datum}
    (h : m.Agrees i scopes offset above' s) (hread : c.instruction? offset = some ins)
    (hop : ins.op ≠ .halt)
    (hcomputes : ∀ m' : Machine, m'.Agrees i scopes (offset + ins.size) above' s →
      Computes (Leaves i scopes (offset + ins.size) above · s) r
        (execute c m' ins.op ins.operand ins.operand)) :
    Simulates c least m (Leaves i scopes (offset + ins.size) above)
      (Evaluation.ofExcept r s) := by
  have hcomputes := hcomputes _ (h.moved _)
  have hstep := h.step hread hop
  generalize execute c { m with offset := offset + ins.size } ins.op ins.operand ins.operand =
    result at hcomputes hstep
  match r, result with
  | .ok x, .ok next => exact .of_step hstep (.done hcomputes)
  | .error fault, .error e => exact .failed hstep hcomputes h.world h.globals
  | .ok _, .error _ | .error _, .ok _ => exact hcomputes.elim

theorem Agrees.simulates_unary (op : UnaryOp) (h : m.Agrees i scopes offset (x :: above) s)
    (hread : c.instruction? offset = some ⟨op.opCode, 0⟩) :
    Simulates c least m (Leaves i scopes (offset + 1) above)
      (Evaluation.ofExcept (op.apply x) s) := by
  cases op with
  | negate =>
    refine h.simulates hread (by rintro ⟨⟩) fun m' hm' => ?_
    obtain ⟨v, hpop, hv, hnext⟩ := hm'.pop
    simp only [UnaryOp.opCode, execute, hpop]
    cases hv with
    | number a => exact hnext.push (.number (-a))
    | nil | bool | text => exact rfl
  | not =>
    refine h.simulates hread (by rintro ⟨⟩) fun m' hm' => ?_
    obtain ⟨v, hpop, hv, hnext⟩ := hm'.pop
    simp only [UnaryOp.opCode, execute, hpop]
    refine hnext.push (v := .bool v.isFalsey) ?_
    rw [hv.isFalsey_eq]
    exact .bool _

/-- Two operands are popped, the right one first. -/
theorem Agrees.pop_pop (h : m.Agrees i scopes offset (y :: x :: above) s) :
    ∃ w v, m.pop = .ok (w, { m with stack := m.stack.pop }) ∧
      Machine.pop { m with stack := m.stack.pop } = .ok (v, { m with stack := m.stack.pop.pop }) ∧
      v.Denotes m.world.interner x ∧ w.Denotes m.world.interner y ∧
      Agrees i scopes offset above s { m with stack := m.stack.pop.pop } := by
  obtain ⟨w, hpop, hw, hrest⟩ := h.pop
  obtain ⟨v, hpop', hv, hnext⟩ := hrest.pop
  exact ⟨w, v, hpop, hpop', hv, hw, hnext⟩

theorem Agrees.computes_onNumbers (h : m.Agrees i scopes offset (y :: x :: above) s)
    {f : Float → Float → Value} {g : Float → Float → Datum}
    (hfg : ∀ a b, (f a b).Denotes m.world.interner (g a b)) :
    Computes (Leaves i scopes offset above · s) (Lox.onNumbers g x y) (m.onNumbers f) := by
  obtain ⟨w, v, hpop, hpop', hv, hw, hnext⟩ := h.pop_pop
  rw [Machine.onNumbers, hpop]
  show Computes _ _ (Machine.pop { m with stack := m.stack.pop } >>= _)
  rw [hpop']
  cases hv with
  | number a =>
    cases hw with
    | number b => exact hnext.push (hfg a b)
    | nil | bool | text => exact rfl
  | nil | bool | text => exact rfl

/-- Interning more texts keeps the agreement. -/
theorem Agrees.grow {j : Interner} (h : m.Agrees i scopes offset above s)
    (hj : m.world.interner.Grows j) :
    Agrees i scopes offset above s { m with world := { m.world with interner := j } } where
  offset := h.offset
  interner := h.interner.trans hj
  world := h.world.grow hj
  globals := (h.world.globalsByName_grow hj).trans h.globals
  output := h.output
  scopes := h.scopes
  stack := h.stack.imp fun _ _ hv => hv.mono hj

theorem Agrees.computes_add (h : m.Agrees i scopes offset (y :: x :: above) s) :
    Computes (Leaves i scopes offset above · s) (addData x y) m.add := by
  obtain ⟨w, v, hpop, hpop', hv, hw, hnext⟩ := h.pop_pop
  rw [Machine.add, hpop]
  show Computes _ _ (Machine.pop { m with stack := m.stack.pop } >>= _)
  rw [hpop']
  cases hv with
  | number a =>
    cases hw with
    | number b => exact hnext.push (.number (a + b))
    | nil | bool | text => exact rfl
  | text hfind =>
    cases hw with
    | text hfind' =>
      rw [← Interner.text_of_find? hfind, ← Interner.text_of_find? hfind']
      exact (hnext.grow (Interner.grows_intern _ _)).push (Value.denotes_intern _ _)
    | nil | bool | number => exact rfl
  | nil | bool => exact rfl

theorem Agrees.computes_equal (h : m.Agrees i scopes offset (y :: x :: above) s)
    {operand : Nat} : Computes (Leaves i scopes offset above · s) (BinaryOp.equal.apply x y)
      (execute c m .equal operand operand) := by
  obtain ⟨w, v, hpop, hpop', hv, hw, hnext⟩ := h.pop_pop
  simp only [execute, hpop]
  show Computes _ _ (Machine.pop { m with stack := m.stack.pop } >>= _)
  rw [hpop']
  refine hnext.push (v := .bool (v.equals w)) ?_
  rw [hv.equals_eq hw]
  exact .bool _

theorem onNumbers_not (f : Float → Float → Bool) (x y : Datum) :
    Lox.onNumbers (fun a b => .bool (!f a b)) x y =
      Lox.onNumbers (fun a b => .bool (f a b)) x y >>= UnaryOp.not.apply := by
  cases x <;> cases y <;> rfl

theorem ofExcept_bind (r : Except Fault Datum) (f : Datum → Except Fault Datum) :
    Evaluation.ofExcept (r >>= f) = Evaluation.ofExcept r >>= fun x => Evaluation.ofExcept (f x) := by
  cases r <;> rfl

/-- An instruction of one byte that takes two operands. -/
theorem Agrees.simulates_single (op : OpCode) {r : Except Fault Datum}
    (h : m.Agrees i scopes offset (y :: x :: above) s) (hsize : op.size = 1) (hop : op ≠ .halt)
    (hholds : c.Holds offset [⟨op, 0⟩])
    (hcomputes : ∀ m' : Machine, m'.Agrees i scopes (offset + 1) (y :: x :: above) s →
      Computes (Leaves i scopes (offset + 1) above · s) r (execute c m' op 0 0)) :
    Simulates c least m (Leaves i scopes (offset + 1) above) (Evaluation.ofExcept r s) := by
  have hins : Instruction.size ⟨op, 0⟩ = 1 := hsize
  have hread := Chunk.holds_singleton.mp hholds
  rw [← hins]
  exact h.simulates hread hop (by rwa [hins])

/-- Such an instruction with a negation after it. -/
theorem Agrees.simulates_negated (op : OpCode) {r : Except Fault Datum}
    (h : m.Agrees i scopes offset (y :: x :: above) s) (hsize : op.size = 1) (hop : op ≠ .halt)
    (hholds : c.Holds offset [⟨op, 0⟩, ⟨.not, 0⟩])
    (hcomputes : ∀ m' : Machine, m'.Agrees i scopes (offset + 1) (y :: x :: above) s →
      Computes (Leaves i scopes (offset + 1) above · s) r (execute c m' op 0 0)) :
    Simulates c least m (Leaves i scopes (offset + 2) above)
      (Evaluation.ofExcept (r >>= UnaryOp.not.apply) s) := by
  obtain ⟨hread, hrest⟩ := Chunk.holds_cons.mp hholds
  rw [show offset + Instruction.size ⟨op, 0⟩ = offset + 1 by rw [Instruction.size, hsize]] at hrest
  rw [ofExcept_bind]
  refine (h.simulates_single op hsize hop (Chunk.holds_singleton.mpr hread) hcomputes).bind ?_
  intro z s' m' hz
  exact Agrees.simulates_unary .not hz (Chunk.holds_singleton.mp hrest)

theorem Agrees.simulates_binary (op : BinaryOp) (h : m.Agrees i scopes offset (y :: x :: above) s)
    (hholds : c.Holds offset (op.opCodes.map (⟨·, 0⟩))) :
    Simulates c least m (Leaves i scopes (offset + codeSize (op.opCodes.map (⟨·, 0⟩))) above)
      (Evaluation.ofExcept (op.apply x y) s) := by
  cases op with
  | equal => exact h.simulates_single .equal rfl nofun hholds fun m' hm' => hm'.computes_equal
  | notEqual => exact h.simulates_negated .equal rfl nofun hholds fun m' hm' => hm'.computes_equal
  | greater =>
    exact h.simulates_single .greater rfl nofun hholds fun m' hm' =>
      hm'.computes_onNumbers fun a b => .bool (a > b)
  | greaterEqual =>
    rw [BinaryOp.apply, onNumbers_not]
    exact h.simulates_negated .less rfl nofun hholds fun m' hm' =>
      hm'.computes_onNumbers fun a b => .bool (a < b)
  | less =>
    exact h.simulates_single .less rfl nofun hholds fun m' hm' =>
      hm'.computes_onNumbers fun a b => .bool (a < b)
  | lessEqual =>
    rw [BinaryOp.apply, onNumbers_not]
    exact h.simulates_negated .greater rfl nofun hholds fun m' hm' =>
      hm'.computes_onNumbers fun a b => .bool (a > b)
  | add => exact h.simulates_single .add rfl nofun hholds fun m' hm' => hm'.computes_add
  | subtract =>
    exact h.simulates_single .subtract rfl nofun hholds fun m' hm' =>
      hm'.computes_onNumbers fun a b => .number (a - b)
  | multiply =>
    exact h.simulates_single .multiply rfl nofun hholds fun m' hm' =>
      hm'.computes_onNumbers fun a b => .number (a * b)
  | divide =>
    exact h.simulates_single .divide rfl nofun hholds fun m' hm' =>
      hm'.computes_onNumbers fun a b => .number (a / b)

/-! ### Variables -/

section Variables

variable {constants pool : Pool} {name : String}

theorem exists_constant (hpool : List.Forall₂ (Value.Denotes i) c.constants.toList constants)
    {k : Nat} (hget : constants[k]? = some x) : ∃ v, c.constants[k]? = some v ∧ v.Denotes i x := by
  obtain ⟨v, hv, hdenotes⟩ := exists_getElem?_of_forall₂ hpool hget
  exact ⟨v, by rwa [← Array.getElem?_toList], hdenotes⟩

theorem exists_globalName (hpool : List.Forall₂ (Value.Denotes i) c.constants.toList constants)
    {k : Nat} (hget : constants[k]? = some (.text name)) :
    ∃ symbol, globalName c k = .ok symbol ∧ i.find? name = some symbol := by
  obtain ⟨v, hv, hdenotes⟩ := exists_constant hpool hget
  cases hdenotes with
  | text hfind => exact ⟨_, globalName_eq hv, hfind⟩

/-- Both instructions for a name have one byte of operand. -/
theorem size_nameInstruction {ofLocal ofGlobal : OpCode} (hlocal : ofLocal.operand = .slot)
    (hglobal : ofGlobal.operand = .constant) :
    (nameInstruction scopes pool name ofLocal ofGlobal).size = 2 := by
  rw [nameInstruction]
  split
  · rw [Instruction.size, OpCode.size, hlocal]
    rfl
  · rw [Instruction.size, OpCode.size, hglobal]
    rfl

/-- The instruction of a name is that of its slot, if the name is that of a local. -/
theorem nameInstruction_of_slot? {ofLocal ofGlobal : OpCode} {k : Nat}
    (h : slot? name scopes.names = some k) :
    nameInstruction scopes pool name ofLocal ofGlobal = ⟨ofLocal, k⟩ := by rw [nameInstruction, h]

theorem nameInstruction_of_global {ofLocal ofGlobal : OpCode}
    (h : slot? name scopes.names = none) :
    nameInstruction scopes pool name ofLocal ofGlobal = ⟨ofGlobal, pool.indexOf name⟩ := by
  rw [nameInstruction, h]

/-- A global that is used has its name among the constants. -/
theorem getElem?_of_global (hconstants : pool.addAll (nameConstants scopes name) <+: constants)
    (h : slot? name scopes.names = none) :
    constants[pool.indexOf name]? = some (.text name) := by
  rw [nameConstants, if_neg (LocalScope.slot?_eq_none_iff.mp h)] at hconstants
  exact Pool.getElem?_indexOf_of_prefix hconstants

theorem Agrees.exists_slot (h : m.Agrees i scopes offset above s) {k : Nat}
    (hget : s.values.reverse[k]? = some y) :
    ∃ v, m.stack[k]? = some v ∧ v.Denotes m.world.interner y := by
  have hlt := (List.getElem?_eq_some_iff.mp hget).1
  have hget' : (s.values.reverse ++ above.reverse)[k]? = some y := by
    rwa [List.getElem?_append_left hlt]
  obtain ⟨v, hv, hdenotes⟩ := exists_getElem?_of_forall₂ h.slots hget'
  exact ⟨v, by rwa [← Array.getElem?_toList], hdenotes⟩

theorem Agrees.message_undefined (h : m.Agrees i scopes offset above s) {symbol : Symbol}
    (hfind : i.find? name = some symbol) :
    (m.undefined symbol).message = (Fault.undefinedVariable name).message := by
  have htext := Interner.text_of_find? (h.interner _ _ hfind)
  exact congrArg (fun text => (Fault.undefinedVariable text).message) htext

theorem Agrees.globals_eq (h : m.Agrees i scopes offset above s) {symbol : Symbol}
    (hfind : i.find? name = some symbol) :
    s.globals name = (m.world.globals.find? symbol).map (Value.datum m.world.interner) := by
  rw [← h.globals, World.globalsByName_eq (h.interner _ _ hfind)]

theorem Agrees.exists_global (h : m.Agrees i scopes offset above s) {symbol : Symbol}
    (hfind : i.find? name = some symbol) (hvalue : s.globals name = some y) :
    ∃ v, m.world.globals.find? symbol = some v ∧ v.Denotes m.world.interner y := by
  rw [h.globals_eq hfind] at hvalue
  obtain ⟨v, hv, hdatum⟩ := Option.map_eq_some_iff.mp hvalue
  obtain ⟨-, z, hz⟩ := h.world.entries symbol v hv
  obtain rfl := hz.datum_eq.symm.trans hdatum
  exact ⟨v, hv, hz⟩

/-- **Reading a variable.** -/
theorem Agrees.simulates_read
    (hpool : List.Forall₂ (Value.Denotes i) c.constants.toList constants)
    (hconstants : pool.addAll (nameConstants scopes name) <+: constants)
    (h : m.Agrees i scopes offset above s)
    (hread : c.instruction? offset = some (nameInstruction scopes pool name .getLocal .getGlobal)) :
    Simulates c least m (Leaves i scopes (offset + 2) above) (Evaluation.read name s) := by
  cases hslot : slot? name scopes.names with
  | some k =>
    rw [nameInstruction_of_slot? hslot] at hread
    obtain ⟨y, hget, hvalue⟩ := Store.get_of_slot? (show slot? name s.scopes.names = some k by
      rwa [h.scopes])
    rw [Evaluation.read, hget]
    refine h.simulates (r := .ok y) hread (by rintro ⟨⟩) fun m' hm' => ?_
    obtain ⟨v, hv, hdenotes⟩ := hm'.exists_slot hvalue
    simp only [execute, hv]
    exact hm'.push hdenotes
  | none =>
    rw [nameInstruction_of_global hslot] at hread
    obtain ⟨symbol, hglobal, hfind⟩ := exists_globalName hpool (getElem?_of_global hconstants hslot)
    rw [Evaluation.read, Store.get_of_slot?_eq_none (by rwa [h.scopes])]
    cases hvalue : s.globals name with
    | some y =>
      refine h.simulates (r := .ok y) hread (by rintro ⟨⟩) fun m' hm' => ?_
      obtain ⟨v, hv, hdenotes⟩ := hm'.exists_global hfind hvalue
      simp only [execute, hglobal, hv, bind, Except.bind]
      exact hm'.push hdenotes
    | none =>
      refine h.simulates (r := .error (.undefinedVariable name)) hread (by rintro ⟨⟩) fun m' hm' => ?_
      rw [hm'.globals_eq hfind, Option.map_eq_none_iff] at hvalue
      simp only [execute, hglobal, hvalue, bind, Except.bind]
      exact hm'.message_undefined hfind

/-- Assigning a local changes its slot. -/
theorem Agrees.setSlot {s' : Store} {k : Nat} {v : Value} (h : m.Agrees i scopes offset above s)
    (hv : v.Denotes m.world.interner x) (hscopes : s'.scopes = s.scopes)
    (hvalues : s'.values.reverse = s.values.reverse.set k x) (hglobals : s'.globals = s.globals)
    (houtput : s'.output = s.output) (hlt : k < s.values.reverse.length) :
    Agrees i scopes offset above s' { m with stack := m.stack.setIfInBounds k v } where
  offset := h.offset
  interner := h.interner
  world := h.world
  globals := h.globals.trans hglobals.symm
  output := h.output.trans houtput.symm
  scopes := hscopes.trans h.scopes
  stack := by
    have hset := forall₂_set h.slots k hv
    rw [List.set_append_left _ _ hlt, ← hvalues, ← List.reverse_append] at hset
    rw [Array.toList_setIfInBounds, ← List.forall₂_reverse_iff, List.reverse_reverse]
    exact hset

/-- **Assigning a variable.** -/
theorem Agrees.simulates_assign
    (hpool : List.Forall₂ (Value.Denotes i) c.constants.toList constants)
    (hconstants : pool.addAll (nameConstants scopes name) <+: constants)
    (h : m.Agrees i scopes offset (x :: above) s)
    (hread : c.instruction? offset = some (nameInstruction scopes pool name .setLocal .setGlobal)) :
    Simulates c least m (Leaves i scopes (offset + 2) above) (Evaluation.assign name x s) := by
  cases hslot : slot? name scopes.names with
  | some k =>
    rw [nameInstruction_of_slot? hslot] at hread
    rw [← h.scopes] at hslot
    obtain ⟨y, -, hvalue⟩ := Store.get_of_slot? hslot
    obtain ⟨s', hassign, hscopes, hvalues, hglobals, houtput⟩ := Store.assign_of_slot? hslot x
    rw [Evaluation.assign, hassign]
    obtain ⟨next, hstep, hnext⟩ := h.exists_step (P := Leaves i scopes (offset + 2) above x s') hread
      (by rintro ⟨⟩) fun m' hm' => by
        obtain ⟨v, hpeek, hv⟩ := hm'.peek
        obtain ⟨w, hw, -⟩ := hm'.exists_slot hvalue
        have hlt : k < m'.stack.size := (Array.getElem?_eq_some_iff.mp hw).1
        refine ⟨{ m' with stack := m'.stack.setIfInBounds k v }, ?_, ?_⟩
        · simp only [execute, hpeek]
          show (if k < m'.stack.size then _ else _) = _
          rw [if_pos hlt]
          rfl
        · exact hm'.setSlot hv hscopes hvalues hglobals houtput (List.getElem?_eq_some_iff.mp hvalue).1
    exact .of_step hstep (.done hnext)
  | none =>
    rw [nameInstruction_of_global hslot] at hread
    obtain ⟨symbol, hglobal, hfind⟩ := exists_globalName hpool (getElem?_of_global hconstants hslot)
    rw [Evaluation.assign, Store.assign_of_slot?_eq_none (by rwa [h.scopes])]
    have hm' := h.moved (offset + 2)
    obtain ⟨v, hpeek, hv⟩ := hm'.peek
    have hstep := h.step hread (by rintro ⟨⟩)
    rcases h.world.replace (h.interner _ _ hfind) hv with
      ⟨hnone, hreplace⟩ | ⟨hsome, old, globals, hreplace, hworld, hglobals⟩
    · have hexecute : execute c { m with offset := offset + 2 } .setGlobal (pool.indexOf name)
          (pool.indexOf name) = .error (m.undefined symbol) := by
        simp only [execute, hglobal, hpeek, hreplace, bind, Except.bind]
        rfl
      rw [← h.globals, hnone, if_neg (by rintro ⟨⟩)]
      exact .failed (hstep.trans (congrArg progress hexecute)) (h.message_undefined hfind) h.world
        h.globals
    · have hexecute : execute c { m with offset := offset + 2 } .setGlobal (pool.indexOf name)
          (pool.indexOf name) =
            .ok { m with offset := offset + 2, world := { m.world with globals } } := by
        simp only [execute, hglobal, hpeek, hreplace, bind, Except.bind]
        rfl
      rw [← h.globals, if_pos hsome]
      refine .of_step (hstep.trans (congrArg progress hexecute)) (.done ?_)
      exact { hm' with world := hworld, globals := hglobals }

/-- Declaring a global. -/
theorem Agrees.exists_defineGlobal
    (hpool : List.Forall₂ (Value.Denotes i) c.constants.toList constants)
    (hconstants : constants[pool.indexOf name]? = some (.text name)) (hscopes : scopes = [])
    (h : m.Agrees i scopes offset (x :: above) s)
    (hread : c.instruction? offset = some ⟨.defineGlobal, pool.indexOf name⟩) :
    ∃ next, m.step c = .running next ∧
      next.Agrees i scopes (offset + 2) above (s.declare name x) := by
  obtain ⟨symbol, hglobal, hfind⟩ := exists_globalName hpool hconstants
  have hframes : s.frames = [] := List.map_eq_nil_iff.mp (h.scopes.trans hscopes)
  have hdeclare : s.declare name x =
      { s with globals := Function.update s.globals name (some x) } := by
    rw [Store.declare, hframes]
  refine h.exists_step hread nofun fun m' hm' => ?_
  obtain ⟨v, hpop, hv, hnext⟩ := hm'.pop
  have hname := hm'.interner _ _ hfind
  have hglobals := (hm'.world.globalsByName_insert hname hv).trans
    (congrArg (Function.update · name (some x)) hm'.globals)
  refine ⟨{ m' with stack := m'.stack.pop, world := { m'.world with
    globals := (m'.world.globals.insert symbol v).2 } }, ?_, ?_⟩
  · simp only [execute, hglobal, hpop]
    rfl
  · rw [hdeclare]
    exact { hnext with world := hm'.world.insert hname hv, globals := hglobals }

end Variables

end Machine

end Lox
