import Lox.Syntax.Grammar

/-!
# Where expressions and statements begin and end

A token tells whether an expression or a statement can begin with it, and whether an expression can
go on with it. Where a piece of source is followed by a token that it cannot go on with, the grammar
leaves only one way to read it.

## Main definitions

* `Connective.leftLevel`, `Connective.rightLevel`: the levels at which the operands of a connective
  are derived.
* `Stops`: an expression at a level does not go on with a token.
* `Follows`: an expression derived at a level can be the left operand of what follows, if anything
  takes it as one.

## Main results

* `Expr.Derives.mono`: what is derived at a level is derived at every looser one.
* `Expr.Derives.exists_cons`, `Stmt.Derives.exists_cons`: the tokens that expressions and statements
  begin with.
-/

namespace Lox

namespace Precedence

variable {p q r : Precedence}

theorem le_trans (hpq : p ≤ q) (hqr : q ≤ r) : p ≤ r := Nat.le_trans hpq hqr

end Precedence

/-! ### Tokens of operators -/

@[simp] theorem Literal.opening?_token (v : Literal) : v.token.opening? = some (.literal v) := by
  cases v with
  | nil => rfl
  | bool b => cases b <;> rfl

@[simp] theorem UnaryOp.opening?_token (op : UnaryOp) : op.token.opening? = some (.unary op) := by
  cases op <;> rfl

@[simp] theorem BinaryOp.connective?_token (op : BinaryOp) :
    op.token.connective? = some (.binary op) := by
  cases op <;> rfl

/-- The token of a connective. -/
def Connective.token : Connective → TokenKind
  | binary op => op.token
  | and => .kwAnd
  | or => .kwOr

theorem TokenKind.connective?_eq_some_iff {kind : TokenKind} {c : Connective} :
    kind.connective? = some c ↔ kind = c.token := by
  constructor
  · intro h
    cases kind <;> simp [connective?] at h <;> subst h <;> rfl
  · rintro rfl
    cases c with
    | binary op => exact op.connective?_token
    | and | or => rfl

/-- The token of an opening. -/
def Opening.token : Opening → TokenKind
  | grouping => .leftParen
  | unary op => op.token
  | number => .number
  | string => .string
  | literal value => value.token
  | «variable» => .identifier

theorem TokenKind.opening?_eq_some_iff {kind : TokenKind} {o : Opening} :
    kind.opening? = some o ↔ kind = o.token := by
  constructor
  · intro h
    cases kind <;> simp [opening?] at h <;> subst h <;> rfl
  · rintro rfl
    cases o with
    | unary op => exact op.opening?_token
    | literal v => exact v.opening?_token
    | grouping | number | string | «variable» => rfl

/-! ### Levels -/

/-- The level at which the left operand of a connective is derived. That of `and` and `or` is one
tighter than the connective, since they associate to the right. -/
def Connective.leftLevel : Connective → Precedence
  | binary op => op.precedence
  | and => .equality
  | or => .and

/-- The level at which the right operand of a connective is derived. -/
def Connective.rightLevel : Connective → Precedence
  | binary op => op.precedence.next
  | and => .and
  | or => .or

/-- The expression that a connective makes of two. -/
def Connective.apply : Connective → Expr → Expr → Expr
  | binary op, left, right => .binary op left right
  | and, left, right => .and left right
  | or, left, right => .or left right

theorem Connective.precedence_le_leftLevel (c : Connective) : c.precedence ≤ c.leftLevel := by
  cases c with
  | binary op => exact Nat.le_refl _
  | and | or => decide

theorem Connective.token_ne_equal (c : Connective) : c.token ≠ .equal := by
  cases c with
  | binary op => cases op <;> nofun
  | and | or => nofun

/-- An expression at the level does not go on with a token of this kind. -/
structure Stops (level : Precedence) (kind : TokenKind) : Prop where
  connective : ∀ c, kind.connective? = some c → ¬level ≤ c.precedence
  equal : level ≤ .assignment → kind ≠ .equal

/-- An expression derived at the level can be the left operand of a connective of this kind. -/
def Follows (level : Precedence) (kind : TokenKind) : Prop :=
  ∀ c, kind.connective? = some c → c.leftLevel ≤ level

/-- A token that is neither a connective nor an equals sign ends every expression. -/
theorem stops_of_connective?_eq_none {level : Precedence} {kind : TokenKind}
    (h : kind.connective? = none) (hequal : kind ≠ .equal) : Stops level kind :=
  ⟨fun c hc => by rw [h] at hc; exact absurd hc nofun, fun _ => hequal⟩

theorem Stops.follows {level : Precedence} {kind : TokenKind} (h : Stops level kind) :
    Follows level kind := by
  intro c hc
  have hlt : c.precedence.rank < level.rank := Nat.lt_of_not_le (h.connective c hc)
  refine Nat.le_trans ?_ hlt
  cases c with
  | binary op => exact Nat.le_succ _
  | and | or => exact Nat.le_refl _

/-- The right operand of a connective ends where the whole does. -/
theorem Follows.stops_rightLevel {level : Precedence} {kind : TokenKind} (h : Follows level kind)
    (c : Connective) (hlevel : level ≤ c.precedence) : Stops c.rightLevel kind := by
  constructor
  · intro c' hc' hle
    have hleft : c'.leftLevel ≤ c.precedence := Precedence.le_trans (h c' hc') hlevel
    have hlt : c'.precedence.rank < c.rightLevel.rank := by
      cases c with
      | binary op =>
        have hnext : op.precedence.next.rank = op.precedence.rank + 1 := by cases op <;> rfl
        show _ < op.precedence.next.rank
        rw [hnext]
        exact Nat.lt_succ_of_le (Precedence.le_trans c'.precedence_le_leftLevel hleft)
      | and | or =>
        cases c' with
        | binary op => cases op <;> exact absurd hleft (by decide)
        | and | or => exact Nat.lt_of_lt_of_le (by decide) hleft
    exact absurd hle (Nat.not_le_of_lt hlt)
  · intro hle
    cases c with
    | binary op => cases op <;> exact absurd hle (by decide)
    | and | or => exact absurd hle (by decide)

/-- The operand of a unary operator ends before every connective. -/
theorem stops_unary (kind : TokenKind) : Stops .unary kind := by
  constructor
  · intro c _ hle
    cases c with
    | binary op => cases op <;> exact absurd hle (by decide)
    | and | or => exact absurd hle (by decide)
  · exact fun hle => absurd hle (by decide)

/-- The right side of an assignment ends where the whole does. -/
theorem Follows.stops_assignment {level : Precedence} {kind : TokenKind} (h : Follows level kind)
    (hlevel : level ≤ .assignment) (hequal : kind ≠ .equal) : Stops .assignment kind := by
  refine ⟨?_, fun _ => hequal⟩
  intro c hc _
  have hleft : c.leftLevel ≤ .assignment := Precedence.le_trans (h c hc) hlevel
  cases c with
  | binary op => cases op <;> exact absurd hleft (by decide)
  | and | or => exact absurd hleft (by decide)

/-- An expression derived at the level of the left operand can be followed by the connective. -/
theorem follows_leftLevel (c : Connective) : Follows c.leftLevel c.token := by
  intro c' hc'
  have heq : c'.token = c.token := (TokenKind.connective?_eq_some_iff.mp hc').symm
  have hsame : some c' = some c := by
    rw [← TokenKind.connective?_eq_some_iff.mpr rfl, heq, TokenKind.connective?_eq_some_iff]
  rw [Option.some.inj hsame]
  exact Nat.le_refl _

/-! ### First tokens -/

variable {e : Expr} {s : Stmt} {d : Decl} {ts : List Token}

theorem Expr.Derives.mono {p q : Precedence} (h : e.Derives q ts) (hpq : p ≤ q) :
    e.Derives p ts := by
  cases h with
  | literal kind => exact .literal kind
  | number kind => exact .number kind
  | string kind lexeme => exact .string kind lexeme
  | «variable» kind => exact .variable kind
  | assign loose name sign right => exact .assign (Precedence.le_trans hpq loose) name sign right
  | group opening derives closing => exact .group opening derives closing
  | unary loose sign derives => exact .unary (Precedence.le_trans hpq loose) sign derives
  | binary loose lefts sign rights => exact .binary (Precedence.le_trans hpq loose) lefts sign rights
  | and loose lefts sign rights => exact .and (Precedence.le_trans hpq loose) lefts sign rights
  | or loose lefts sign rights => exact .or (Precedence.le_trans hpq loose) lefts sign rights

/-- The rule of the grammar for connectives. -/
theorem Expr.Derives.connect {p : Precedence} {l r : Expr} {ls rs : List Token} {t : Token}
    {c : Connective} (hp : p ≤ c.precedence) (hl : l.Derives c.leftLevel ls)
    (ht : t.kind = c.token) (hr : r.Derives c.rightLevel rs) :
    (c.apply l r).Derives p (ls ++ t :: rs) := by
  cases c with
  | binary op => exact .binary hp hl ht hr
  | and => exact .and hp hl ht hr
  | or => exact .or hp hl ht hr

/-- An expression begins with a token that can open an operand. -/
theorem Expr.Derives.exists_cons {p : Precedence} (h : e.Derives p ts) :
    ∃ t us, ts = t :: us ∧ t.kind.opening?.isSome := by
  induction h with
  | literal kind => exact ⟨_, _, rfl, by rw [kind]; simp⟩
  | number kind => exact ⟨_, _, rfl, by rw [kind]; rfl⟩
  | string kind lexeme => exact ⟨_, _, rfl, by rw [kind]; rfl⟩
  | «variable» kind => exact ⟨_, _, rfl, by rw [kind]; rfl⟩
  | assign loose name sign right ih => exact ⟨_, _, rfl, by rw [name]; rfl⟩
  | group opening derives closing ih => exact ⟨_, _, rfl, by rw [opening]; rfl⟩
  | unary loose sign derives ih => exact ⟨_, _, rfl, by rw [sign]; simp⟩
  | binary loose lefts sign rights ih _ =>
    obtain ⟨t, us, rfl, ht⟩ := ih
    exact ⟨t, _, rfl, ht⟩
  | and loose lefts sign rights ih _ =>
    obtain ⟨t, us, rfl, ht⟩ := ih
    exact ⟨t, _, rfl, ht⟩
  | or loose lefts sign rights ih _ =>
    obtain ⟨t, us, rfl, ht⟩ := ih
    exact ⟨t, _, rfl, ht⟩

/-- Whether a statement can begin with a token of this kind. -/
def TokenKind.opensStatement (kind : TokenKind) : Bool :=
  kind.opening?.isSome || [kwPrint, leftBrace, kwIf, kwWhile, kwFor].contains kind

theorem TokenKind.opensStatement_of_opening? {kind : TokenKind} (h : kind.opening?.isSome) :
    kind.opensStatement := by
  rw [opensStatement, h, Bool.true_or]

/-- A statement begins with a token that can open one. -/
theorem Stmt.Derives.exists_cons (h : s.Derives ts) :
    ∃ t us, ts = t :: us ∧ t.kind.opensStatement := by
  cases h with
  | expression value closing =>
    obtain ⟨t, us, rfl, ht⟩ := value.exists_cons
    exact ⟨t, _, rfl, TokenKind.opensStatement_of_opening? ht⟩
  | print keyword value closing => exact ⟨_, _, rfl, by rw [keyword]; rfl⟩
  | block opening body closing => exact ⟨_, _, rfl, by rw [opening]; rfl⟩
  | ifThen keyword => exact ⟨_, _, rfl, by rw [keyword]; rfl⟩
  | ifElse keyword => exact ⟨_, _, rfl, by rw [keyword]; rfl⟩
  | whileLoop keyword => exact ⟨_, _, rfl, by rw [keyword]; rfl⟩
  | forLoop keyword => exact ⟨_, _, rfl, by rw [keyword]; rfl⟩

/-- A declaration begins with `var` or with a token that can open a statement. -/
theorem Decl.Derives.exists_cons (h : d.Derives ts) :
    ∃ t us, ts = t :: us ∧ (t.kind = .kwVar ∨ t.kind.opensStatement) := by
  cases h with
  | var keyword derives => exact ⟨_, _, rfl, .inl keyword⟩
  | statement derives =>
    obtain ⟨t, us, rfl, ht⟩ := derives.exists_cons
    exact ⟨t, us, rfl, .inr ht⟩

end Lox
