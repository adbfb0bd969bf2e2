import Lox.Token

/-!
# Operators

An expression is a sequence of operands with connectives between them. This module says what each
kind of token can do at the two kinds of position: at the start of an operand it can be an
`Opening`, and after a complete operand it can be a `Connective`.

A connective binds at a level of `Precedence`. All connectives associate to the left but `and` and
`or`, whose right operand is read at their own level, and assignment, which is part of an opening:
only a name can be followed by `=`.

## Main definitions

* `UnaryOp`, `BinaryOp`, `Literal`: the operators and the literals that are words.
* `Precedence`: the levels, ordered from loosest to tightest, and `Precedence.next`.
* `TokenKind.opening?`, `TokenKind.connective?`: the two tables.
-/

namespace Lox

/-- The operators of one operand. -/
inductive UnaryOp where
  | negate
  | not
  deriving DecidableEq, Repr, Inhabited

/-- The operators of two operands that evaluate both. -/
inductive BinaryOp where
  | equal | notEqual
  | greater | greaterEqual | less | lessEqual
  | add | subtract
  | multiply | divide
  deriving DecidableEq, Repr, Inhabited

/-- The literals that are words. -/
inductive Literal where
  | nil
  | bool (value : Bool)
  deriving DecidableEq, Repr, Inhabited

/-! ### Levels -/

/-- How tightly an operator binds, from loosest to tightest. -/
inductive Precedence where
  | none | assignment | or | and | equality | comparison | term | factor | unary | call | primary
  deriving DecidableEq, Repr, Inhabited

namespace Precedence

/-- The place of a level in the order. -/
def rank (p : Precedence) : Nat := p.ctorIdx

instance : LE Precedence := ⟨fun p q => p.rank ≤ q.rank⟩

instance (p q : Precedence) : Decidable (p ≤ q) := inferInstanceAs (Decidable (p.rank ≤ q.rank))

/-- One level tighter. There is none above `primary`. -/
def next : Precedence → Precedence
  | none => assignment
  | assignment => or
  | or => and
  | and => equality
  | equality => comparison
  | comparison => term
  | term => factor
  | factor => unary
  | unary => call
  | call => primary
  | primary => primary

end Precedence

/-- The level of a binary operator. -/
def BinaryOp.precedence : BinaryOp → Precedence
  | equal | notEqual => .equality
  | greater | greaterEqual | less | lessEqual => .comparison
  | add | subtract => .term
  | multiply | divide => .factor

/-! ### Tokens in expressions -/

/-- What a token does at the start of an operand. -/
inductive Opening where
  | grouping
  | unary (op : UnaryOp)
  | number
  | string
  | literal (value : Literal)
  | variable
  deriving DecidableEq, Repr, Inhabited

/-- What a token does after a complete operand. -/
inductive Connective where
  | binary (op : BinaryOp)
  | and
  | or
  deriving DecidableEq, Repr, Inhabited

/-- The level of a connective. -/
def Connective.precedence : Connective → Precedence
  | binary op => op.precedence
  | and => .and
  | or => .or

namespace TokenKind

/-- What a kind of token does at the start of an operand. -/
def opening? : TokenKind → Option Opening
  | leftParen => some .grouping
  | minus => some (.unary .negate)
  | bang => some (.unary .not)
  | number => some .number
  | string => some .string
  | kwNil => some (.literal .nil)
  | kwFalse => some (.literal (.bool false))
  | kwTrue => some (.literal (.bool true))
  | identifier => some .variable
  | _ => none

/-- What a kind of token does after a complete operand. -/
def connective? : TokenKind → Option Connective
  | equalEqual => some (.binary .equal)
  | bangEqual => some (.binary .notEqual)
  | greater => some (.binary .greater)
  | greaterEqual => some (.binary .greaterEqual)
  | less => some (.binary .less)
  | lessEqual => some (.binary .lessEqual)
  | plus => some (.binary .add)
  | minus => some (.binary .subtract)
  | star => some (.binary .multiply)
  | slash => some (.binary .divide)
  | kwAnd => some .and
  | kwOr => some .or
  | _ => none

/-- The level at which a kind of token connects operands. -/
def precedence (kind : TokenKind) : Precedence :=
  (kind.connective?.map Connective.precedence).getD .none

end TokenKind

end Lox
