import Lox.Proofs.Bytecode.Reading

/-!
# Verified code is safe

While a machine runs verified code, its offset is that of an instruction and its stack has the
height assigned to that offset. So whatever the world, an instruction can fail only for a reason
that a program can be blamed for.

## Main definitions

* `RuntimeError.ofProgram`: the errors that a program can be blamed for.
* `Machine.Stands`: the invariant of a run.

## Main results

* `Machine.Stands.step`: a step keeps the invariant.
* `Chunk.Verified.ofProgram_of_run`: how a run of verified code can fail.
-/

namespace Lox

/-- The errors that a program can be blamed for, not its code. -/
def RuntimeError.ofProgram : RuntimeError → Bool
  | operandsNotNumbers | operandsNotAddable | operandNotNumber | undefinedVariable _ => true
  | _ => false

namespace Machine

variable {c : Chunk} {m : Machine} {P : Machine → Prop}

/-! ### Executions -/

/-- The execution leads to a machine as expected, or fails for a reason that a program can be blamed
for. -/
def Leads (P : Machine → Prop) : Except RuntimeError Machine → Prop
  | .ok next => P next
  | .error e => e.ofProgram = true

theorem exists_pop (h : 0 < m.stack.size) :
    ∃ v, m.pop = .ok (v, { m with stack := m.stack.pop }) := by
  have hback : m.stack.back? = some m.stack[m.stack.size - 1] := by
    rw [Array.back?, Array.getElem?_eq_getElem (by omega)]
  exact ⟨m.stack[m.stack.size - 1], by rw [pop, hback]⟩

theorem exists_peek (h : 0 < m.stack.size) : ∃ v, m.peek = .ok v := by
  have hback : m.stack.back? = some m.stack[m.stack.size - 1] := by
    rw [Array.back?, Array.getElem?_eq_getElem (by omega)]
  exact ⟨m.stack[m.stack.size - 1], by rw [peek, hback]⟩

/-- Two values are there to be popped. -/
theorem exists_pop_pop (h : 2 ≤ m.stack.size) : ∃ b a, m.pop = .ok (b, { m with stack := m.stack.pop })
    ∧ pop { m with stack := m.stack.pop } = .ok (a, { m with stack := m.stack.pop.pop }) := by
  obtain ⟨b, hb⟩ := exists_pop (m := m) (by omega)
  obtain ⟨a, ha⟩ := exists_pop (m := { m with stack := m.stack.pop }) (by simp; omega)
  exact ⟨b, a, hb, ha⟩

theorem size_push_pop {stack : Array Value} {v : Value} (h : 1 ≤ stack.size) :
    (stack.pop.push v).size = stack.size := by
  rw [Array.size_push, Array.size_pop]
  omega

theorem size_push_pop_pop {stack : Array Value} {v : Value} (h : 2 ≤ stack.size) :
    (stack.pop.pop.push v).size = stack.size - 1 := by
  rw [Array.size_push, Array.size_pop, Array.size_pop]
  omega

theorem leads_onNumbers (h : 2 ≤ m.stack.size) (f : Float → Float → Value)
    (hP : ∀ v, P ({ m with stack := m.stack.pop.pop }.push v)) : Leads P (m.onNumbers f) := by
  obtain ⟨b, a, hb, ha⟩ := exists_pop_pop h
  rw [onNumbers, hb]
  show Leads P ((pop { m with stack := m.stack.pop }) >>= _)
  rw [ha]
  cases a <;> cases b <;> first | exact rfl | exact hP _

theorem leads_add (h : 2 ≤ m.stack.size)
    (hP : ∀ v world, P ({ m with stack := m.stack.pop.pop, world }.push v)) : Leads P m.add := by
  obtain ⟨b, a, hb, ha⟩ := exists_pop_pop h
  rw [add, hb]
  show Leads P ((pop { m with stack := m.stack.pop }) >>= _)
  rw [ha]
  cases a <;> cases b <;> first | exact rfl | exact hP _ _

/-- **An instruction that is in order** leads to one of its targets, with the height it says. -/
theorem leads_execute {listed : List (Nat × Instruction)} {height : Nat → Nat} {offset : Nat}
    {i : Instruction} (h : c.Safe listed height offset i) (hstack : m.stack.size = height offset)
    (hoffset : m.offset = offset + i.size) (hop : i.op ≠ .halt) :
    Leads (fun next => next.offset ∈ i.targets offset ∧
        next.stack.size = i.op.heightAfter m.stack.size)
      (execute c m i.op i.operand i.operand) := by
  obtain ⟨op, operand⟩ := i
  have htakes : op.takes ≤ m.stack.size := hstack ▸ h.takes
  have hnext : ∀ {t : Nat}, t = offset + Instruction.size ⟨op, operand⟩ → m.offset ∈ [t] := by
    rintro t rfl
    rw [hoffset]
    exact List.mem_singleton_self _
  cases op with
  | constant =>
    have hlt := h.constant rfl
    simp only [execute, constant, Array.getElem?_eq_getElem hlt]
    exact ⟨hnext rfl, Array.size_push _⟩
  | nil | true | false => exact ⟨hnext rfl, Array.size_push _⟩
  | pop | print =>
    obtain ⟨v, hv⟩ := exists_pop (m := m) htakes
    simp only [execute, hv]
    exact ⟨hnext rfl, Array.size_pop⟩
  | not =>
    obtain ⟨v, hv⟩ := exists_pop (m := m) htakes
    simp only [execute, hv]
    exact ⟨hnext rfl, size_push_pop htakes⟩
  | negate =>
    obtain ⟨v, hv⟩ := exists_pop (m := m) htakes
    simp only [execute, hv]
    cases v with
    | number x => exact ⟨hnext rfl, size_push_pop htakes⟩
    | _ => exact rfl
  | defineGlobal =>
    obtain ⟨name, hname⟩ := h.name rfl
    obtain ⟨v, hv⟩ := exists_pop (m := m) htakes
    simp only [execute, globalName_eq hname, hv]
    exact ⟨hnext rfl, Array.size_pop⟩
  | getLocal =>
    have hlt : operand < m.stack.size := hstack ▸ h.slot rfl
    simp only [execute, Array.getElem?_eq_getElem hlt]
    exact ⟨hnext rfl, Array.size_push _⟩
  | setLocal =>
    have hlt : operand < m.stack.size := hstack ▸ h.slot rfl
    obtain ⟨v, hv⟩ := exists_peek (m := m) htakes
    simp only [execute, hv]
    show Leads _ (if operand < m.stack.size then _ else _)
    rw [if_pos hlt]
    exact ⟨hnext rfl, Array.size_setIfInBounds⟩
  | getGlobal =>
    obtain ⟨name, hname⟩ := h.name rfl
    simp only [execute, globalName_eq hname, bind, Except.bind]
    cases m.world.globals.find? name with
    | none => exact rfl
    | some value => exact ⟨hnext rfl, Array.size_push _⟩
  | setGlobal =>
    obtain ⟨name, hname⟩ := h.name rfl
    obtain ⟨v, hv⟩ := exists_peek (m := m) htakes
    simp only [execute, globalName_eq hname, hv, bind, Except.bind]
    split
    · exact ⟨hnext rfl, rfl⟩
    · exact rfl
  | equal =>
    obtain ⟨b, a, hb, ha⟩ := exists_pop_pop htakes
    simp only [execute, hb]
    show Leads _ (pop { m with stack := m.stack.pop } >>= _)
    rw [ha]
    exact ⟨hnext rfl, size_push_pop_pop htakes⟩
  | greater | less | subtract | multiply | divide =>
    exact leads_onNumbers htakes _ fun v => ⟨hnext rfl, size_push_pop_pop htakes⟩
  | add =>
    exact leads_add htakes fun v world => ⟨hnext rfl, size_push_pop_pop htakes⟩
  | jump => exact ⟨List.mem_singleton.mpr (by rw [hoffset]), rfl⟩
  | jumpIfFalse =>
    obtain ⟨v, hv⟩ := exists_peek (m := m) htakes
    simp only [execute, hv]
    show Leads _ (.ok (if v.isFalsey then _ else _))
    split
    · refine ⟨List.mem_cons_of_mem _ (List.mem_singleton.mpr ?_), rfl⟩
      rw [hoffset]
    · refine ⟨List.mem_cons.mpr (.inl ?_), rfl⟩
      rw [hoffset]
  | loop =>
    have hback : operand ≤ m.offset := hoffset ▸ h.back rfl
    rw [execute, if_pos hback]
    refine ⟨List.mem_singleton.mpr ?_, rfl⟩
    rw [hoffset]
  | halt => exact absurd rfl hop

/-! ### Runs -/

/-- The machine is at an instruction, with the height of the stack that is assigned to its
offset. -/
def Stands (listed : List (Nat × Instruction)) (height : Nat → Nat) (m : Machine) : Prop :=
  (∃ i, (m.offset, i) ∈ listed) ∧ m.stack.size = height m.offset

section Runs

variable {listed : List (Nat × Instruction)} {height : Nat → Nat}

/-- **A step keeps the invariant**, ends the run, or fails for a reason that a program can be blamed
for. -/
theorem Stands.step (hreads : c.Reads 0 listed) (hsafe : ∀ x ∈ listed, c.Safe listed height x.1 x.2)
    (hhalt : ∀ x ∈ listed, x.2.op = .halt → x.2.operand = 0) (h : m.Stands listed height) :
    match m.step c with
    | .running next => next.Stands listed height
    | .finished => m.stack = #[]
    | .failed e => e.ofProgram = true := by
  obtain ⟨⟨i, hi⟩, hstack⟩ := h
  have hread := hreads.instruction?_of_mem hi
  have hsafe' := hsafe _ hi
  by_cases hop : i.op = .halt
  · obtain rfl : i = ⟨.halt, 0⟩ := by
      obtain ⟨op, operand⟩ := i
      obtain rfl : op = .halt := hop
      exact congrArg _ (hhalt _ hi rfl)
    have hempty : m.stack = #[] := Array.eq_empty_of_size_eq_zero (hstack.trans (hsafe'.halt rfl))
    rw [step_of_halt hread, hempty]
    exact rfl
  · have hleads := leads_execute (m := { m with offset := m.offset + i.size }) hsafe' hstack rfl hop
    rw [step_of_instruction? hread hop]
    cases hexecute : execute c { m with offset := m.offset + i.size } i.op i.operand i.operand with
    | error e =>
      rw [hexecute] at hleads
      exact hleads
    | ok next =>
      rw [hexecute] at hleads
      obtain ⟨hlisted, hheight⟩ := hsafe'.target _ hleads.1
      refine ⟨hlisted, hleads.2.trans ?_⟩
      rw [hheight, ← hstack]

/-- **A run keeps the invariant**, so it can fail only for a reason that a program can be blamed
for. -/
theorem Stands.run (hreads : c.Reads 0 listed) (hsafe : ∀ x ∈ listed, c.Safe listed height x.1 x.2)
    (hhalt : ∀ x ∈ listed, x.2.op = .halt → x.2.operand = 0) (h : m.Stands listed height)
    {limit : Nat} {o : Outcome} {e : RuntimeError} (hrun : m.run c limit = some o)
    (hfailed : o.result = .error e) : e.ofProgram = true := by
  induction limit generalizing m with
  | zero => exact absurd hrun nofun
  | succ limit ih =>
    have hstep := h.step hreads hsafe hhalt
    rw [run] at hrun
    cases hprogress : m.step c with
    | running next =>
      rw [hprogress] at hstep hrun
      exact ih hstep hrun
    | finished =>
      rw [hprogress] at hrun
      obtain rfl := Option.some.inj hrun
      exact absurd hfailed nofun
    | failed e' =>
      rw [hprogress] at hstep hrun
      obtain rfl := Option.some.inj hrun
      exact Except.error.inj hfailed ▸ hstep

end Runs

end Machine

/-- **Verified code is safe.** In no world a run of it fails but for a reason that a program can be
blamed for. -/
theorem Chunk.Verified.ofProgram_of_run {c : Chunk} (h : c.Verified) {world : World} {limit : Nat}
    {o : Outcome} {e : RuntimeError} (hrun : (Machine.start world).run c limit = some o)
    (hfailed : o.result = .error e) : e.ofProgram = true := by
  obtain ⟨code, last, height, hreads, hhalt, hstart, hsafe⟩ := h
  have hstands : (Machine.start world).Stands (code ++ [(last, ⟨.halt, 0⟩)]) height :=
    ⟨hreads.exists_mem (by simp), hstart.symm⟩
  refine hstands.run hreads hsafe ?_ hrun hfailed
  intro x hx hop
  rcases List.mem_append.mp hx with hmem | hmem
  · exact absurd hop (hhalt x hmem)
  · rw [List.mem_singleton.mp hmem]

end Lox
