import Lox.Syntax.Operator

/-!
# Syntax trees

What a source says, apart from how it is laid out. Parentheses stay in the tree, since each pair
takes a level of nesting; apart from that a tree has no trace of the tokens it was read from.

## Main definitions

* `Expr`: expressions.
* `Stmt`, `Decl`: statements and declarations. Only a declaration can be a variable.
* `ForInit`: the first clause of a for statement.
-/

namespace Lox

/-- An expression. -/
inductive Expr where
  | literal (value : Literal)
  | number (value : Float)
  | string (text : String)
  | variable (name : String)
  | assign (name : String) (value : Expr)
  | group (inner : Expr)
  | unary (op : UnaryOp) (operand : Expr)
  | binary (op : BinaryOp) (left right : Expr)
  | and (left right : Expr)
  | or (left right : Expr)
  deriving DecidableEq, Repr, Inhabited

/-- The first clause of a for statement. -/
inductive ForInit where
  | none
  | var (name : String) (value : Option Expr)
  | expression (value : Expr)
  deriving DecidableEq, Repr, Inhabited

mutual

/-- A statement. -/
inductive Stmt where
  | expression (value : Expr)
  | print (value : Expr)
  | block (body : List Decl)
  | ifThen (condition : Expr) (body : Stmt)
  | ifElse (condition : Expr) (body other : Stmt)
  | whileLoop (condition : Expr) (body : Stmt)
  | forLoop (first : ForInit) (condition increment : Option Expr) (body : Stmt)

/-- A declaration. -/
inductive Decl where
  | var (name : String) (value : Option Expr)
  | statement (inner : Stmt)

end

/-- Whether a statement ends with an if statement that has no `else`, so that an `else` after it
would belong to that one. -/
def Stmt.endsOpen : Stmt → Bool
  | .ifThen _ _ => true
  | .ifElse _ _ other => other.endsOpen
  | .whileLoop _ body => body.endsOpen
  | .forLoop _ _ _ body => body.endsOpen
  | .expression _ | .print _ | .block _ => false

end Lox
