import Lox.Compilation.Translation

/-!
# Post-order code

The code of an expression in post-order: the code of the operands from left to right, and after it
the instructions of the operator. What an instruction names of the constant pool depends on the
constants before it, so the pool is handed on from one part to the next, in the order of the source.
The name of a global that is assigned comes before the value.

## Main definitions

* `BinaryOp.instructions`, `UnaryOp.instructions`, `Literal.instructions`: the instructions of
  operators and literals.
* `Expr.postOrder`: the code of an expression, and the pool after it.
-/

namespace Lox

/-- The instructions of a literal that is a word. -/
def Literal.instructions : Literal → List Instruction
  | nil => [⟨.nil, 0⟩]
  | bool true => [⟨.true, 0⟩]
  | bool false => [⟨.false, 0⟩]

/-- The instructions of an operator of one operand. -/
def UnaryOp.instructions : UnaryOp → List Instruction
  | negate => [⟨.negate, 0⟩]
  | not => [⟨.not, 0⟩]

/-- The instructions of an operator of two operands. Three comparisons are the negations of others. -/
def BinaryOp.instructions : BinaryOp → List Instruction
  | equal => [⟨.equal, 0⟩]
  | notEqual => [⟨.equal, 0⟩, ⟨.not, 0⟩]
  | greater => [⟨.greater, 0⟩]
  | greaterEqual => [⟨.less, 0⟩, ⟨.not, 0⟩]
  | less => [⟨.less, 0⟩]
  | lessEqual => [⟨.greater, 0⟩, ⟨.not, 0⟩]
  | add => [⟨.add, 0⟩]
  | subtract => [⟨.subtract, 0⟩]
  | multiply => [⟨.multiply, 0⟩]
  | divide => [⟨.divide, 0⟩]

/-- The code of an expression in post-order after the constants of a pool, and the pool after it.
`locals` are the names of the locals, the latest first; every other name is that of a global. -/
def Expr.postOrder (locals : List String) : Expr → Pool → List Instruction × Pool
  | .literal value, pool => (value.instructions, pool)
  | .number x, pool => ([⟨.constant, pool.length⟩], pool ++ [.number x])
  | .string text, pool => ([⟨.constant, pool.indexOf text⟩], pool.add (.text text))
  | .variable name, pool =>
    match slot? name locals with
    | some slot => ([⟨.getLocal, slot⟩], pool)
    | none => ([⟨.getGlobal, pool.indexOf name⟩], pool.add (.text name))
  | .assign name value, pool =>
    match slot? name locals with
    | some slot =>
      let (code, pool) := value.postOrder locals pool
      (code ++ [⟨.setLocal, slot⟩], pool)
    | none =>
      let (code, pool') := value.postOrder locals (pool.add (.text name))
      (code ++ [⟨.setGlobal, pool.indexOf name⟩], pool')
  | .group inner, pool => inner.postOrder locals pool
  | .unary op operand, pool =>
    let (code, pool) := operand.postOrder locals pool
    (code ++ op.instructions, pool)
  | .binary op left right, pool =>
    let (code, pool) := left.postOrder locals pool
    let (code', pool) := right.postOrder locals pool
    (code ++ code' ++ op.instructions, pool)
  | .and left right, pool =>
    let (code, pool) := left.postOrder locals pool
    let (code', pool) := right.postOrder locals pool
    (code ++ ⟨.jumpIfFalse, 1 + codeSize code'⟩ :: ⟨.pop, 0⟩ :: code', pool)
  | .or left right, pool =>
    let (code, pool) := left.postOrder locals pool
    let (code', pool) := right.postOrder locals pool
    (code ++ ⟨.jumpIfFalse, 3⟩ :: ⟨.jump, 1 + codeSize code'⟩ :: ⟨.pop, 0⟩ :: code', pool)

end Lox
