import Lox.Number.Style
import Lox.Syntax.Tree

/-!
# The grammar

`Derives` relates a tree to the token sequences that spell it. The levels of precedence make the
grammar of expressions unambiguous: an expression derived at a level has no connective outside
parentheses that binds less tightly. An `else` belongs to the nearest `if` before it.

```
program     → declaration*
declaration → "var" IDENT ( "=" expression )? ";" | statement
statement   → expression ";" | "print" expression ";" | "{" declaration* "}"
            | "if" "(" expression ")" statement ( "else" statement )?
            | "while" "(" expression ")" statement
            | "for" "(" ( "var" … | expression? ";" ) expression? ";" expression? ")" statement
```

## Main definitions

* `Literal.token`, `UnaryOp.token`, `BinaryOp.token`: the tokens of operators.
* `Expr.Derives`: the grammar of expressions at a level.
* `Stmt.Derives`, `Decl.Derives`, `Decl.DerivesAll`: the grammar of statements, declarations and
  programs.
-/

namespace Lox

/-- The token of a literal that is a word. -/
def Literal.token : Literal → TokenKind
  | nil => .kwNil
  | bool true => .kwTrue
  | bool false => .kwFalse

/-- The token of an operator of one operand. -/
def UnaryOp.token : UnaryOp → TokenKind
  | negate => .minus
  | not => .bang

/-- The token of an operator of two operands. -/
def BinaryOp.token : BinaryOp → TokenKind
  | equal => .equalEqual
  | notEqual => .bangEqual
  | greater => .greater
  | greaterEqual => .greaterEqual
  | less => .less
  | lessEqual => .lessEqual
  | add => .plus
  | subtract => .minus
  | multiply => .star
  | divide => .slash

/-- The text between quotes is that of a string token. -/
def quoted (text : String) : String := "\"" ++ text ++ "\""

/-! ### Expressions -/

/-- The tokens spell the expression, which has no connective looser than the level outside
parentheses. Binary operators associate to the left; `and`, `or` and assignment to the right. Only
a name can be assigned, and only where the level is the loosest. -/
inductive Expr.Derives : Precedence → Expr → List Token → Prop where
  | literal {level : Precedence} {value : Literal} {t : Token} (kind : t.kind = value.token) :
      Derives level (.literal value) [t]
  | number {level : Precedence} {t : Token} (kind : t.kind = .number) :
      Derives level (.number (Number.parse t.lexeme)) [t]
  | string {level : Precedence} {text : String} {t : Token} (kind : t.kind = .string)
      (lexeme : t.lexeme = quoted text) : Derives level (.string text) [t]
  | variable {level : Precedence} {t : Token} (kind : t.kind = .identifier) :
      Derives level (.variable t.lexeme) [t]
  | assign {level : Precedence} {value : Expr} {t u : Token} {ts : List Token}
      (loose : level ≤ .assignment) (name : t.kind = .identifier) (sign : u.kind = .equal)
      (right : Derives .assignment value ts) : Derives level (.assign t.lexeme value) (t :: u :: ts)
  | group {level : Precedence} {inner : Expr} {t u : Token} {ts : List Token}
      (opening : t.kind = .leftParen) (derives : Derives .assignment inner ts)
      (closing : u.kind = .rightParen) : Derives level (.group inner) (t :: (ts ++ [u]))
  | unary {level : Precedence} {op : UnaryOp} {operand : Expr} {t : Token} {ts : List Token}
      (loose : level ≤ .unary) (sign : t.kind = op.token) (derives : Derives .unary operand ts) :
      Derives level (.unary op operand) (t :: ts)
  | binary {level : Precedence} {op : BinaryOp} {left right : Expr} {t : Token}
      {ls rs : List Token} (loose : level ≤ op.precedence) (lefts : Derives op.precedence left ls)
      (sign : t.kind = op.token) (rights : Derives op.precedence.next right rs) :
      Derives level (.binary op left right) (ls ++ t :: rs)
  | and {level : Precedence} {left right : Expr} {t : Token} {ls rs : List Token}
      (loose : level ≤ .and) (lefts : Derives .equality left ls) (sign : t.kind = .kwAnd)
      (rights : Derives .and right rs) : Derives level (.and left right) (ls ++ t :: rs)
  | or {level : Precedence} {left right : Expr} {t : Token} {ls rs : List Token}
      (loose : level ≤ .or) (lefts : Derives .and left ls) (sign : t.kind = .kwOr)
      (rights : Derives .or right rs) : Derives level (.or left right) (ls ++ t :: rs)

/-- The tokens spell a whole expression, or there is none and there are no tokens. -/
inductive Expr.DerivesOption : Option Expr → List Token → Prop where
  | none : DerivesOption none []
  | some {e : Expr} {ts : List Token} (derives : e.Derives .assignment ts) :
      DerivesOption (some e) ts

/-! ### Statements and declarations -/

/-- The tokens spell the declaration of a variable, from the name to the semicolon. -/
inductive Decl.DerivesVar : String → Option Expr → List Token → Prop where
  | plain {t u : Token} (name : t.kind = .identifier) (closing : u.kind = .semicolon) :
      DerivesVar t.lexeme none [t, u]
  | initialized {e : Expr} {t u v : Token} {ts : List Token} (name : t.kind = .identifier)
      (sign : u.kind = .equal) (value : e.Derives .assignment ts)
      (closing : v.kind = .semicolon) : DerivesVar t.lexeme (some e) (t :: u :: (ts ++ [v]))

/-- The tokens spell the first clause of a for statement, with its semicolon. -/
inductive ForInit.Derives : ForInit → List Token → Prop where
  | none {t : Token} (closing : t.kind = .semicolon) : Derives .none [t]
  | var {name : String} {value : Option Expr} {t : Token} {ts : List Token}
      (keyword : t.kind = .kwVar) (derives : Decl.DerivesVar name value ts) :
      Derives (.var name value) (t :: ts)
  | expression {e : Expr} {t : Token} {ts : List Token} (derives : e.Derives .assignment ts)
      (closing : t.kind = .semicolon) : Derives (.expression e) (ts ++ [t])

mutual

/-- The tokens spell the statement. -/
inductive Stmt.Derives : Stmt → List Token → Prop where
  | expression {e : Expr} {t : Token} {ts : List Token} (value : e.Derives .assignment ts)
      (closing : t.kind = .semicolon) : Stmt.Derives (.expression e) (ts ++ [t])
  | print {e : Expr} {t u : Token} {ts : List Token} (keyword : t.kind = .kwPrint)
      (value : e.Derives .assignment ts) (closing : u.kind = .semicolon) :
      Stmt.Derives (.print e) (t :: (ts ++ [u]))
  | block {ds : List Decl} {t u : Token} {ts : List Token} (opening : t.kind = .leftBrace)
      (body : Decl.DerivesAll ds ts) (closing : u.kind = .rightBrace) :
      Stmt.Derives (.block ds) (t :: (ts ++ [u]))
  | ifThen {e : Expr} {s : Stmt} {t u v : Token} {ts us : List Token} (keyword : t.kind = .kwIf)
      (opening : u.kind = .leftParen) (condition : e.Derives .assignment ts)
      (closing : v.kind = .rightParen) (body : Stmt.Derives s us) :
      Stmt.Derives (.ifThen e s) (t :: u :: (ts ++ v :: us))
  | ifElse {e : Expr} {s s' : Stmt} {t u v w : Token} {ts us vs : List Token}
      (keyword : t.kind = .kwIf) (opening : u.kind = .leftParen)
      (condition : e.Derives .assignment ts) (closing : v.kind = .rightParen)
      (body : Stmt.Derives s us) (nearest : s.endsOpen = false) (otherwise : w.kind = .kwElse)
      (other : Stmt.Derives s' vs) :
      Stmt.Derives (.ifElse e s s') (t :: u :: (ts ++ v :: (us ++ w :: vs)))
  | whileLoop {e : Expr} {s : Stmt} {t u v : Token} {ts us : List Token}
      (keyword : t.kind = .kwWhile) (opening : u.kind = .leftParen)
      (condition : e.Derives .assignment ts) (closing : v.kind = .rightParen)
      (body : Stmt.Derives s us) : Stmt.Derives (.whileLoop e s) (t :: u :: (ts ++ v :: us))
  | forLoop {first : ForInit} {condition increment : Option Expr} {s : Stmt} {t u v w : Token}
      {fs cs is us : List Token} (keyword : t.kind = .kwFor) (opening : u.kind = .leftParen)
      (initial : first.Derives fs) (test : Expr.DerivesOption condition cs)
      (semicolon : v.kind = .semicolon) (step : Expr.DerivesOption increment is)
      (closing : w.kind = .rightParen) (body : Stmt.Derives s us) :
      Stmt.Derives (.forLoop first condition increment s)
        (t :: u :: (fs ++ (cs ++ v :: (is ++ w :: us))))

/-- The tokens spell the declaration. -/
inductive Decl.Derives : Decl → List Token → Prop where
  | var {name : String} {value : Option Expr} {t : Token} {ts : List Token}
      (keyword : t.kind = .kwVar) (derives : Decl.DerivesVar name value ts) :
      Decl.Derives (.var name value) (t :: ts)
  | statement {s : Stmt} {ts : List Token} (derives : Stmt.Derives s ts) :
      Decl.Derives (.statement s) ts

/-- The tokens spell the declarations, one after the other. -/
inductive Decl.DerivesAll : List Decl → List Token → Prop where
  | nil : Decl.DerivesAll [] []
  | cons {d : Decl} {ds : List Decl} {ts us : List Token} (head : Decl.Derives d ts)
      (tail : Decl.DerivesAll ds us) : Decl.DerivesAll (d :: ds) (ts ++ us)

end

end Lox
