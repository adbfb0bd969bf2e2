import Lox.Proofs.Simulation.Instructions

/-!
# Simulating expressions

The code of an expression leaves its value on the stack, above whatever is there already, or fails
as the evaluation of the expression does.

## Main results

* `Machine.Agrees.simulates_ifTruthy`, `Machine.Agrees.simulates_ifFalsey`: code that may be jumped
  over.
* `Expr.simulates`: expressions.
-/

namespace Lox

namespace Machine

variable {c : Chunk} {i : Interner} {scopes : Scopes} {offset least : Nat} {above : List Datum}
  {s : Store} {m : Machine} {x : Datum} {code : List Instruction} {other : Evaluation Datum}

/-- The value on the stack is replaced by that of the code, unless it is falsey. -/
theorem Agrees.simulates_ifTruthy (h : m.Agrees i scopes offset (x :: above) s)
    (hholds : c.Holds offset (ifTruthy code))
    (hcode : ∀ (start : Nat) (m' : Machine), c.Holds start code → m'.Agrees i scopes start above s →
      Simulates c least m' (Leaves i scopes (start + codeSize code) above) (other s)) :
    Simulates c least m (Leaves i scopes (offset + codeSize (ifTruthy code)) above)
      ((if x.isFalsey then pure x else other) s) := by
  obtain ⟨hread, hholds⟩ := Chunk.holds_cons.mp hholds
  obtain ⟨hreadPop, hholds⟩ := Chunk.holds_cons.mp hholds
  have hsize : offset + codeSize (ifTruthy code) = offset + 3 + (1 + codeSize code) := by
    rw [ifTruthy, codeSize_cons, codeSize_cons, Nat.add_assoc]
    rfl
  obtain ⟨next, hstep, hnext⟩ := h.exists_jumpIfFalse hread
  rw [hsize]
  refine .of_step hstep ?_
  by_cases hfalsey : x.isFalsey = true
  · rw [if_pos hfalsey] at hnext ⊢
    exact .done hnext
  · rw [if_neg hfalsey] at hnext ⊢
    obtain ⟨next', hstep', hnext'⟩ := hnext.exists_pop hreadPop
    rw [← Nat.add_assoc]
    exact .of_step hstep' (hcode _ next' hholds hnext')

/-- The value on the stack is replaced by that of the code if it is falsey. -/
theorem Agrees.simulates_ifFalsey (h : m.Agrees i scopes offset (x :: above) s)
    (hholds : c.Holds offset (ifFalsey code))
    (hcode : ∀ (start : Nat) (m' : Machine), c.Holds start code → m'.Agrees i scopes start above s →
      Simulates c least m' (Leaves i scopes (start + codeSize code) above) (other s)) :
    Simulates c least m (Leaves i scopes (offset + codeSize (ifFalsey code)) above)
      ((if x.isFalsey then other else pure x) s) := by
  obtain ⟨hread, hholds⟩ := Chunk.holds_cons.mp hholds
  obtain ⟨hreadJump, hholds⟩ := Chunk.holds_cons.mp hholds
  obtain ⟨hreadPop, hholds⟩ := Chunk.holds_cons.mp hholds
  have hsize : offset + codeSize (ifFalsey code) = offset + 3 + 3 + (1 + codeSize code) := by
    rw [ifFalsey, codeSize_cons, codeSize_cons, codeSize_cons, Nat.add_assoc, Nat.add_assoc]
    rfl
  obtain ⟨next, hstep, hnext⟩ := h.exists_jumpIfFalse hread
  rw [hsize]
  refine .of_step hstep ?_
  by_cases hfalsey : x.isFalsey = true
  · rw [if_pos hfalsey] at hnext ⊢
    obtain ⟨next', hstep', hnext'⟩ := hnext.exists_pop hreadPop
    rw [← Nat.add_assoc]
    exact .of_step hstep' (hcode _ next' hholds hnext')
  · rw [if_neg hfalsey] at hnext ⊢
    obtain ⟨next', hstep', hnext'⟩ := hnext.exists_jump hreadJump
    exact .of_step hstep' (.done hnext')

end Machine

open Machine

section Expressions

variable {c : Chunk} {i : Interner} {constants pool : Pool} {scopes : Scopes} {offset least : Nat}
  {above : List Datum} {s : Store} {m : Machine}

/-- **Expressions** leave their value on the stack. -/
theorem Expr.simulates (hpool : List.Forall₂ (Value.Denotes i) c.constants.toList constants)
    (e : Expr) (hconstants : pool.addAll (e.constants scopes) <+: constants)
    (hholds : c.Holds offset (e.code scopes pool)) (h : m.Agrees i scopes offset above s) :
    Simulates c least m (Leaves i scopes (offset + codeSize (e.code scopes pool)) above)
      (e.eval s) := by
  induction e generalizing pool offset above s m with
  | literal v =>
    have hread := Chunk.holds_singleton.mp hholds
    obtain ⟨next, hstep, hnext⟩ : ∃ next, m.step c = .running next ∧
        next.Agrees i scopes (offset + 1) (v.datum :: above) s := by
      rcases v with - | - | -
      · exact h.exists_push hread (by rintro ⟨⟩) .nil fun _ => rfl
      · exact h.exists_push hread (by rintro ⟨⟩) (.bool false) fun _ => rfl
      · exact h.exists_push hread (by rintro ⟨⟩) (.bool true) fun _ => rfl
    rw [Expr.code, codeSize_cons]
    refine .of_step hstep (.done ?_)
    rcases v with - | - | - <;> exact hnext
  | number x =>
    have hget : constants[pool.length]? = some (.number x) :=
      Pool.getElem?_of_prefix hconstants (by simp [Expr.constants, Pool.add])
    obtain ⟨v, hv, hdenotes⟩ := exists_constant hpool hget
    obtain ⟨next, hstep, hnext⟩ := h.exists_push (Chunk.holds_singleton.mp hholds) (by rintro ⟨⟩) hdenotes
      fun m' => by simp only [execute, constant, hv]; rfl
    exact .of_step hstep (.done hnext)
  | string t =>
    obtain ⟨v, hv, hdenotes⟩ :=
      exists_constant hpool (Pool.getElem?_indexOf_of_prefix hconstants)
    obtain ⟨next, hstep, hnext⟩ := h.exists_push (Chunk.holds_singleton.mp hholds) (by rintro ⟨⟩) hdenotes
      fun m' => by simp only [execute, constant, hv]; rfl
    exact .of_step hstep (.done hnext)
  | «variable» name =>
    rw [Expr.code, codeSize_cons, codeSize_nil, size_nameInstruction rfl rfl]
    exact h.simulates_read hpool hconstants (Chunk.holds_singleton.mp hholds)
  | assign name value ih =>
    rw [Expr.code, codeSize_append, codeSize_cons, codeSize_nil, size_nameInstruction rfl rfl,
      ← Nat.add_assoc]
    obtain ⟨hvalue, hassign⟩ := Chunk.holds_append.mp hholds
    refine (ih (Pool.addAll_prefix_right hconstants) hvalue h).bind fun x s' m' hx => ?_
    exact Agrees.simulates_assign hpool (Pool.addAll_prefix_left hconstants) hx
      (Chunk.holds_singleton.mp hassign)
  | group inner ih => exact ih hconstants hholds h
  | unary op operand ih =>
    obtain ⟨hoperand, hop⟩ := Chunk.holds_append.mp hholds
    have hsize : codeSize [⟨op.opCode, 0⟩] = 1 := by cases op <;> rfl
    rw [Expr.code, codeSize_append, hsize, ← Nat.add_assoc]
    refine (ih hconstants hoperand h).bind fun x s' m' hx => ?_
    exact Agrees.simulates_unary op hx (Chunk.holds_singleton.mp hop)
  | binary op left right ihl ihr =>
    obtain ⟨hoperands, hop⟩ := Chunk.holds_append.mp hholds
    obtain ⟨hleft, hright⟩ := Chunk.holds_append.mp hoperands
    rw [codeSize_append, ← Nat.add_assoc] at hop
    rw [Expr.code, codeSize_append, codeSize_append, ← Nat.add_assoc, ← Nat.add_assoc]
    refine (ihl (Pool.addAll_prefix_left hconstants) hleft h).bind fun x s' m' hx => ?_
    refine (ihr (Pool.addAll_prefix_right hconstants) hright hx).bind fun y s'' m'' hy => ?_
    exact Agrees.simulates_binary op hy hop
  | and left right ihl ihr =>
    obtain ⟨hleft, hrest⟩ := Chunk.holds_append.mp hholds
    rw [Expr.code, codeSize_append, ← Nat.add_assoc]
    refine (ihl (Pool.addAll_prefix_left hconstants) hleft h).bind fun x s' m' hx => ?_
    exact Agrees.simulates_ifTruthy hx hrest fun start m'' hright hm'' =>
      ihr (Pool.addAll_prefix_right hconstants) hright hm''
  | or left right ihl ihr =>
    obtain ⟨hleft, hrest⟩ := Chunk.holds_append.mp hholds
    rw [Expr.code, codeSize_append, ← Nat.add_assoc]
    refine (ihl (Pool.addAll_prefix_left hconstants) hleft h).bind fun x s' m' hx => ?_
    exact Agrees.simulates_ifFalsey hx hrest fun start m'' hright hm'' =>
      ihr (Pool.addAll_prefix_right hconstants) hright hm''

end Expressions

end Lox
