import Lox.Compilation.Requirements

/-!
# What code owes to the pool

The constants before a piece of a program decide which numbers its instructions give to the constants
they name, and nothing else: the opcodes, the slots of locals and the distances of jumps are the
same. So whether all distances fit does not depend on what stands before a piece.

## Main definitions

* `Instruction.skeleton`: an instruction without the constant it names.

## Main results

* `Decl.jumpsFit_codeAll_iff`: the constants before a program are of no account for its jumps.
-/

namespace Lox

/-- The instruction without the constant it names, if it names one. -/
def Instruction.skeleton (i : Instruction) : Instruction := if i.isJump then i else ⟨i.op, 0⟩

/-! ### Code -/

section Code

variable {xs ys : List Instruction}

@[simp] theorem Instruction.size_skeleton (i : Instruction) : i.skeleton.size = i.size := by
  rw [skeleton]
  split <;> rfl

@[simp] theorem codeSize_map_skeleton (xs : List Instruction) :
    codeSize (xs.map Instruction.skeleton) = codeSize xs := by
  induction xs with
  | nil => rfl
  | cons i xs ih => rw [List.map_cons, codeSize_cons, codeSize_cons, i.size_skeleton, ih]

theorem jumpsFit_map_skeleton : JumpsFit (xs.map Instruction.skeleton) ↔ JumpsFit xs := by
  induction xs with
  | nil => exact Iff.rfl
  | cons i xs ih =>
    rw [List.map_cons, jumpsFit_cons, jumpsFit_cons, ih, Instruction.skeleton]
    by_cases hjump : i.isJump
    · rw [if_pos hjump]
    · rw [if_neg hjump]
      exact and_congr_left fun _ => iff_of_true (fun _ => Nat.zero_le _) fun h => absurd h hjump

@[simp] theorem skeleton_jump (distance : Nat) :
    Instruction.skeleton ⟨.jump, distance⟩ = ⟨.jump, distance⟩ := rfl

@[simp] theorem skeleton_jumpIfFalse (distance : Nat) :
    Instruction.skeleton ⟨.jumpIfFalse, distance⟩ = ⟨.jumpIfFalse, distance⟩ := rfl

@[simp] theorem skeleton_loop (distance : Nat) :
    Instruction.skeleton ⟨.loop, distance⟩ = ⟨.loop, distance⟩ := rfl

theorem skeleton_of_ne {op : OpCode} (hop : op.operand.size ≠ 2) (operand : Nat) :
    Instruction.skeleton ⟨op, operand⟩ = ⟨op, 0⟩ := if_neg (mt eq_of_beq hop)

@[simp] theorem skeleton_zero (op : OpCode) : Instruction.skeleton ⟨op, 0⟩ = ⟨op, 0⟩ := by
  rw [Instruction.skeleton]
  split <;> rfl

@[simp] theorem map_skeleton_ifTruthy (xs : List Instruction) :
    (ifTruthy xs).map Instruction.skeleton = ifTruthy (xs.map Instruction.skeleton) := by
  simp [ifTruthy]

@[simp] theorem map_skeleton_ifFalsey (xs : List Instruction) :
    (ifFalsey xs).map Instruction.skeleton = ifFalsey (xs.map Instruction.skeleton) := by
  simp [ifFalsey]

@[simp] theorem map_skeleton_choice (xs ys : List Instruction) :
    (choice xs ys).map Instruction.skeleton =
      choice (xs.map Instruction.skeleton) (ys.map Instruction.skeleton) := by
  simp [choice]

@[simp] theorem map_skeleton_repeating (condition increment : Option (List Instruction))
    (body : List Instruction) : (repeating condition increment body).map Instruction.skeleton =
      repeating (condition.map (·.map Instruction.skeleton))
        (increment.map (·.map Instruction.skeleton)) (body.map Instruction.skeleton) := by
  cases condition <;> cases increment <;>
    simp [repeating, loopHead, loopHeadSize, loopStep, loopBack, loopExit]

end Code

/-! ### Trees -/

section Trees

theorem skeleton_nameInstruction (scopes : Scopes) (pool pool' : Pool) (name : String)
    (ofLocal : OpCode) {ofGlobal : OpCode} (hglobal : ofGlobal.operand.size ≠ 2) :
    (nameInstruction scopes pool name ofLocal ofGlobal).skeleton =
      (nameInstruction scopes pool' name ofLocal ofGlobal).skeleton := by
  rw [nameInstruction, nameInstruction]
  cases slot? name scopes.names with
  | some slot => rfl
  | none => simp only [skeleton_of_ne hglobal]

/-- **Expressions** have the same skeleton behind any constants. -/
theorem Expr.map_skeleton_code (scopes : Scopes) (e : Expr) (pool pool' : Pool) :
    (e.code scopes pool).map Instruction.skeleton =
      (e.code scopes pool').map Instruction.skeleton := by
  induction e generalizing pool pool' with
  | literal | number | string => rfl
  | «variable» name =>
    exact congrArg (fun i => [i])
      (skeleton_nameInstruction scopes pool pool' name .getLocal (by decide))
  | assign name value ih =>
    simp only [Expr.code, List.map_append, List.map_cons, List.map_nil]
    rw [ih _ (pool'.addAll (nameConstants scopes name)),
      skeleton_nameInstruction scopes pool pool' name .setLocal (by decide)]
  | group inner ih => exact ih pool pool'
  | unary op operand ih =>
    rw [Expr.code, Expr.code, List.map_append, List.map_append, ih pool pool']
  | binary op left right ihl ihr =>
    simp only [Expr.code, List.map_append]
    rw [ihl pool pool', ihr _ (pool'.addAll (left.constants scopes))]
  | and left right ihl ihr =>
    simp only [Expr.code, List.map_append, map_skeleton_ifTruthy]
    rw [ihl pool pool', ihr _ (pool'.addAll (left.constants scopes))]
  | or left right ihl ihr =>
    simp only [Expr.code, List.map_append, map_skeleton_ifFalsey]
    rw [ihl pool pool', ihr _ (pool'.addAll (left.constants scopes))]

theorem Expr.map_skeleton_initialCode (scopes : Scopes) (value : Option Expr) (pool pool' : Pool) :
    (Expr.initialCode scopes pool value).map Instruction.skeleton =
      (Expr.initialCode scopes pool' value).map Instruction.skeleton := by
  cases value with
  | none => rfl
  | some e => exact e.map_skeleton_code scopes pool pool'

/-- The code of an expression that may be missing. -/
theorem Expr.map_skeleton_option (scopes : Scopes) (e : Option Expr) (pool pool' : Pool) :
    (e.map (·.code scopes pool)).map (·.map Instruction.skeleton) =
      (e.map (·.code scopes pool')).map (·.map Instruction.skeleton) := by
  cases e with
  | none => rfl
  | some e => exact congrArg some (e.map_skeleton_code scopes pool pool')

theorem Decl.map_skeleton_varCode (scopes : Scopes) (name : String) (value : Option Expr)
    (pool pool' : Pool) : (Decl.varCode scopes pool name value).map Instruction.skeleton =
      (Decl.varCode scopes pool' name value).map Instruction.skeleton := by
  rw [varCode, varCode]
  split
  · rw [List.map_append, List.map_append, Expr.map_skeleton_initialCode scopes value _ (pool'.add _)]
    rfl
  · exact Expr.map_skeleton_initialCode scopes value pool pool'

theorem ForInit.map_skeleton_code (scopes : Scopes) (first : ForInit) (pool pool' : Pool) :
    (first.code scopes pool).map Instruction.skeleton =
      (first.code scopes pool').map Instruction.skeleton := by
  cases first with
  | none => rfl
  | var name value => exact Decl.map_skeleton_varCode scopes name value pool pool'
  | expression e =>
    rw [ForInit.code, ForInit.code, List.map_append, List.map_append,
      e.map_skeleton_code scopes pool pool']

mutual

/-- **Statements** have the same skeleton behind any constants. -/
theorem Stmt.map_skeleton_code (scopes : Scopes) (st : Stmt) (pool pool' : Pool) :
    (st.code scopes pool).map Instruction.skeleton =
      (st.code scopes pool').map Instruction.skeleton := by
  match st with
  | .expression e | .print e =>
    rw [Stmt.code, Stmt.code, List.map_append, List.map_append,
      e.map_skeleton_code scopes pool pool']
  | .block ds =>
    rw [Stmt.code, Stmt.code, List.map_append, List.map_append,
      Decl.map_skeleton_codeAll _ ds pool pool']
  | .ifThen e s =>
    simp only [Stmt.code, List.map_append, map_skeleton_choice]
    rw [e.map_skeleton_code scopes pool pool',
      Stmt.map_skeleton_code scopes s _ (pool'.addAll (e.constants scopes))]
  | .ifElse e s s' =>
    simp only [Stmt.code, List.map_append, map_skeleton_choice]
    rw [e.map_skeleton_code scopes pool pool',
      Stmt.map_skeleton_code scopes s _ (pool'.addAll (e.constants scopes)),
      Stmt.map_skeleton_code scopes s' _
        ((pool'.addAll (e.constants scopes)).addAll (s.constants scopes))]
  | .whileLoop e s =>
    simp only [Stmt.code, map_skeleton_repeating, Option.map_some, Option.map_none]
    rw [e.map_skeleton_code scopes pool pool',
      Stmt.map_skeleton_code scopes s _ (pool'.addAll (e.constants scopes))]
  | .forLoop first condition increment s =>
    let inner := first.scopesAfter ([] :: scopes)
    let pool₁ := pool'.addAll (first.constants ([] :: scopes))
    let pool₂ := pool₁.addAll (Expr.constantsOption inner condition)
    let pool₃ := pool₂.addAll (Expr.constantsOption inner increment)
    simp only [Stmt.code, List.map_append, map_skeleton_repeating]
    rw [first.map_skeleton_code _ pool pool', Expr.map_skeleton_option _ condition _ pool₁,
      Expr.map_skeleton_option _ increment _ pool₂, Stmt.map_skeleton_code _ s _ pool₃]

theorem Decl.map_skeleton_code (scopes : Scopes) (decl : Decl) (pool pool' : Pool) :
    (decl.code scopes pool).map Instruction.skeleton =
      (decl.code scopes pool').map Instruction.skeleton := by
  match decl with
  | .var name value => exact Decl.map_skeleton_varCode scopes name value pool pool'
  | .statement s => exact Stmt.map_skeleton_code scopes s pool pool'

theorem Decl.map_skeleton_codeAll (scopes : Scopes) (decls : List Decl) (pool pool' : Pool) :
    (Decl.codeAll scopes decls pool).map Instruction.skeleton =
      (Decl.codeAll scopes decls pool').map Instruction.skeleton := by
  match decls with
  | [] => rfl
  | decl :: decls =>
    rw [Decl.codeAll, Decl.codeAll, List.map_append, List.map_append,
      Decl.map_skeleton_code scopes decl pool pool',
      Decl.map_skeleton_codeAll _ decls _ (pool'.addAll (decl.constants scopes))]

end

/-- **The constants before a program** are of no account for its jumps. -/
theorem Decl.jumpsFit_codeAll_iff (scopes : Scopes) (decls : List Decl) (pool pool' : Pool) :
    JumpsFit (Decl.codeAll scopes decls pool) ↔ JumpsFit (Decl.codeAll scopes decls pool') := by
  rw [← jumpsFit_map_skeleton, Decl.map_skeleton_codeAll scopes decls pool pool',
    jumpsFit_map_skeleton]

end Trees

end Lox
