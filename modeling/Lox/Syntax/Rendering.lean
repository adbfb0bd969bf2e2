import Lox.Syntax.Grammar

/-!
# Renderings

A rendering of an expression is a sequence of tokens that reads as the expression, with parentheses
wherever they are needed and any number of them wherever they are not. The parentheses are no part of
the expression: `1+2*3` and `(1)+((2*3))` are renderings of one.

The grammar has a stratum for each level of operators:

```
assignment → IDENT "=" assignment | or
or         → and "or" or | and
and        → equality "and" and | equality
equality   → equality ( "==" | "!=" ) comparison | comparison
comparison → comparison ( ">" | ">=" | "<" | "<=" ) term | term
term       → term ( "+" | "-" ) factor | factor
factor     → factor ( "*" | "/" ) unary | unary
unary      → ( "-" | "!" ) unary | primary
primary    → NUMBER | STRING | IDENT | "nil" | "true" | "false" | "(" assignment ")"
```

It is stated apart from the levels of precedence that the compiler goes by.

## Main definitions

* `Stratum`: the strata, with `Stratum.tighter` for the next one.
* `Expr.Renders`: the tokens are a rendering of the expression.
-/

namespace Lox

/-- The strata of the grammar, from the loosest to the tightest. -/
inductive Stratum where
  | assignment | or | and | equality | comparison | term | factor | unary | primary
  deriving DecidableEq, Repr, Inhabited

/-- The next tighter stratum. There is none above `primary`. -/
def Stratum.tighter : Stratum → Stratum
  | assignment => or
  | or => and
  | and => equality
  | equality => comparison
  | comparison => term
  | term => factor
  | factor => unary
  | unary => primary
  | primary => primary

/-- The stratum of a binary operator. -/
def BinaryOp.stratum : BinaryOp → Stratum
  | equal | notEqual => .equality
  | greater | greaterEqual | less | lessEqual => .comparison
  | add | subtract => .term
  | multiply | divide => .factor

/-- The tokens are a rendering of the expression in the stratum, with parentheses that the expression
does not show. Operands of operators and what stands in parentheses lie one level deeper than the
whole, but for the left operands of connectives; `depth` is the number of levels. -/
inductive Expr.Renders : Stratum → (depth : Nat) → Expr → List Token → Prop where
  | literal {value : Literal} {t : Token} (kind : t.kind = value.token) :
      Renders .primary 1 (.literal value) [t]
  | number {t : Token} (kind : t.kind = .number) :
      Renders .primary 1 (.number (Number.parse t.lexeme)) [t]
  | string {text : String} {t : Token} (kind : t.kind = .string) (lexeme : t.lexeme = quoted text) :
      Renders .primary 1 (.string text) [t]
  | variable {t : Token} (kind : t.kind = .identifier) : Renders .primary 1 (.variable t.lexeme) [t]
  | parentheses {depth : Nat} {e : Expr} {t u : Token} {ts : List Token}
      (opening : t.kind = .leftParen) (inside : Renders .assignment depth e ts)
      (closing : u.kind = .rightParen) : Renders .primary (depth + 1) e (t :: (ts ++ [u]))
  | unary {depth : Nat} {op : UnaryOp} {operand : Expr} {t : Token} {ts : List Token}
      (sign : t.kind = op.token) (right : Renders .unary depth operand ts) :
      Renders .unary (depth + 1) (.unary op operand) (t :: ts)
  | binary {depth depth' : Nat} {op : BinaryOp} {left right : Expr} {t : Token} {ls rs : List Token}
      (lefts : Renders op.stratum depth left ls) (sign : t.kind = op.token)
      (rights : Renders op.stratum.tighter depth' right rs) :
      Renders op.stratum (max depth (depth' + 1)) (.binary op left right) (ls ++ t :: rs)
  | and {depth depth' : Nat} {left right : Expr} {t : Token} {ls rs : List Token}
      (lefts : Renders .equality depth left ls) (sign : t.kind = .kwAnd)
      (rights : Renders .and depth' right rs) :
      Renders .and (max depth (depth' + 1)) (.and left right) (ls ++ t :: rs)
  | or {depth depth' : Nat} {left right : Expr} {t : Token} {ls rs : List Token}
      (lefts : Renders .and depth left ls) (sign : t.kind = .kwOr)
      (rights : Renders .or depth' right rs) :
      Renders .or (max depth (depth' + 1)) (.or left right) (ls ++ t :: rs)
  | assign {depth : Nat} {value : Expr} {t u : Token} {ts : List Token}
      (name : t.kind = .identifier) (sign : u.kind = .equal)
      (right : Renders .assignment depth value ts) :
      Renders .assignment (depth + 1) (.assign t.lexeme value) (t :: u :: ts)
  | looser {stratum : Stratum} {depth : Nat} {e : Expr} {ts : List Token}
      (renders : Renders stratum.tighter depth e ts) : Renders stratum depth e ts

end Lox
