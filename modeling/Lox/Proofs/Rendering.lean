import Lox.Compilation.PostOrder
import Lox.Proofs.Grammar
import Lox.Proofs.Pools
import Lox.Proofs.Translation.Expression
import Lox.Syntax.Rendering

/-!
# Renderings and the grammar

The strata of renderings and the levels of precedence are two accounts of one grammar. The tokens are
a rendering of an expression if and only if the grammar derives them from a tree that is the
expression once its parentheses are taken away, and the levels of nesting that the tree needs are the
depth of the rendering.

Parentheses leave no trace in the code: the post-order code of an expression is that of any of its
trees.

## Main definitions

* `Stratum.level`: the level of precedence of a stratum.
* `Expr.bare`: a tree without its parentheses.

## Main results

* `Expr.renders_iff`: renderings are what the grammar derives.
* `Expr.postOrder_eq`: post-order code is what the translation of a tree writes.
-/

namespace Lox

/-! ### Strata and levels -/

/-- The level of precedence of a stratum. -/
def Stratum.level : Stratum → Precedence
  | assignment => .assignment
  | or => .or
  | and => .and
  | equality => .equality
  | comparison => .comparison
  | term => .term
  | factor => .factor
  | unary => .unary
  | primary => .primary

theorem Stratum.level_le_tighter (s : Stratum) : s.level ≤ s.tighter.level := by
  cases s <;> decide

theorem Stratum.level_le_primary (s : Stratum) : s.level ≤ primary.level := by
  cases s <;> decide

theorem BinaryOp.level_stratum (op : BinaryOp) : op.stratum.level = op.precedence := by
  cases op <;> rfl

theorem BinaryOp.level_tighter (op : BinaryOp) : op.stratum.tighter.level = op.precedence.next := by
  cases op <;> rfl

/-- A stratum is reached from every looser one. -/
theorem Stratum.exists_iterate_tighter {s s' : Stratum} (h : s.level ≤ s'.level) :
    ∃ count, s' = tighter^[count] s := by
  have hcount : s' = tighter^[s'.ctorIdx - s.ctorIdx] s := by
    revert h
    cases s <;> cases s' <;> decide
  exact ⟨_, hcount⟩

/-- A name needs a constant unless it has a slot. -/
theorem nameConstants_eq (scopes : Scopes) (name : String) : nameConstants scopes name =
    match slot? name scopes.names with
    | some _ => []
    | none => [.text name] := by
  rw [nameConstants]
  cases hslot : slot? name scopes.names with
  | none => exact if_neg (LocalScope.slot?_eq_none_iff.mp hslot)
  | some slot =>
    refine if_pos (by_contra fun habsent => ?_)
    rw [LocalScope.slot?_eq_none_iff.mpr habsent] at hslot
    cases hslot

namespace Expr

/-- The tree without its parentheses. -/
def bare : Expr → Expr
  | .literal value => .literal value
  | .number x => .number x
  | .string text => .string text
  | .variable name => .variable name
  | .assign name value => .assign name value.bare
  | .group inner => inner.bare
  | .unary op operand => .unary op operand.bare
  | .binary op left right => .binary op left.bare right.bare
  | .and left right => .and left.bare right.bare
  | .or left right => .or left.bare right.bare

variable {e : Expr} {s s' : Stratum} {depth : Nat} {ts : List Token}

/-- What is rendered in a stratum is rendered in every looser one. -/
theorem Renders.mono (h : e.Renders s' depth ts) (hle : s.level ≤ s'.level) :
    e.Renders s depth ts := by
  obtain ⟨count, rfl⟩ := Stratum.exists_iterate_tighter hle
  clear hle
  induction count generalizing s with
  | zero => exact h
  | succ count ih => exact .looser (ih h)

/-- A rendering is derived by the grammar. -/
theorem Renders.exists_derives (h : e.Renders s depth ts) :
    ∃ tree : Expr, tree.Derives s.level ts ∧ tree.bare = e ∧ tree.height = depth := by
  induction h with
  | literal kind => exact ⟨_, .literal kind, rfl, rfl⟩
  | number kind => exact ⟨_, .number kind, rfl, rfl⟩
  | string kind lexeme => exact ⟨_, .string kind lexeme, rfl, rfl⟩
  | «variable» kind => exact ⟨_, .variable kind, rfl, rfl⟩
  | parentheses opening _ closing ih =>
    obtain ⟨tree, hderives, rfl, rfl⟩ := ih
    exact ⟨.group tree, .group opening hderives closing, rfl, rfl⟩
  | unary sign _ ih =>
    obtain ⟨tree, hderives, rfl, rfl⟩ := ih
    exact ⟨.unary _ tree, .unary (Nat.le_refl _) sign hderives, rfl, rfl⟩
  | @binary _ _ op _ _ _ _ _ _ sign _ ihl ihr =>
    obtain ⟨left, hleft, rfl, rfl⟩ := ihl
    obtain ⟨right, hright, rfl, rfl⟩ := ihr
    rw [op.level_stratum] at hleft
    rw [op.level_tighter] at hright
    exact ⟨.binary op left right, .binary (Nat.le_of_eq (congrArg _ op.level_stratum)) hleft sign hright,
      rfl, rfl⟩
  | and _ sign _ ihl ihr =>
    obtain ⟨left, hleft, rfl, rfl⟩ := ihl
    obtain ⟨right, hright, rfl, rfl⟩ := ihr
    exact ⟨.and left right, .and (Nat.le_refl _) hleft sign hright, rfl, rfl⟩
  | or _ sign _ ihl ihr =>
    obtain ⟨left, hleft, rfl, rfl⟩ := ihl
    obtain ⟨right, hright, rfl, rfl⟩ := ihr
    exact ⟨.or left right, .or (Nat.le_refl _) hleft sign hright, rfl, rfl⟩
  | assign name sign _ ih =>
    obtain ⟨tree, hderives, rfl, rfl⟩ := ih
    exact ⟨.assign _ tree, .assign (Nat.le_refl _) name sign hderives, rfl, rfl⟩
  | @looser stratum _ _ _ _ ih =>
    obtain ⟨tree, hderives, hbare, hheight⟩ := ih
    exact ⟨tree, hderives.mono stratum.level_le_tighter, hbare, hheight⟩

/-- What the grammar derives is a rendering. -/
theorem Derives.renders {p : Precedence} (h : e.Derives p ts) (hp : s.level = p) :
    e.bare.Renders s e.height ts := by
  induction h generalizing s with
  | literal kind => exact .mono (.literal kind) s.level_le_primary
  | number kind => exact .mono (.number kind) s.level_le_primary
  | string kind lexeme => exact .mono (.string kind lexeme) s.level_le_primary
  | «variable» kind => exact .mono (.variable kind) s.level_le_primary
  | assign loose name sign _ ih => exact .mono (.assign name sign (ih rfl)) (hp ▸ loose)
  | group opening _ closing ih =>
    exact .mono (.parentheses opening (ih rfl) closing) s.level_le_primary
  | unary loose sign _ ih => exact .mono (.unary sign (ih rfl)) (hp ▸ loose)
  | @binary _ op _ _ _ _ _ loose _ sign _ ihl ihr =>
    have hle : s.level ≤ op.stratum.level := op.level_stratum.symm ▸ hp ▸ loose
    exact .mono (.binary (ihl op.level_stratum) sign (ihr op.level_tighter)) hle
  | and loose _ sign _ ihl ihr => exact .mono (.and (ihl rfl) sign (ihr rfl)) (hp ▸ loose)
  | or loose _ sign _ ihl ihr => exact .mono (.or (ihl rfl) sign (ihr rfl)) (hp ▸ loose)

/-- **Renderings are what the grammar derives**, from trees with parentheses. -/
theorem renders_iff : e.Renders s depth ts ↔
    ∃ tree : Expr, tree.Derives s.level ts ∧ tree.bare = e ∧ tree.height = depth := by
  constructor
  · exact Renders.exists_derives
  · rintro ⟨tree, hderives, rfl, rfl⟩
    exact hderives.renders rfl

/-! ### What parentheses do not change -/

variable (e)

theorem names_bare : e.bare.names = e.names := by
  induction e with
  | literal | number | string | «variable» => rfl
  | assign name value ih => exact congrArg (name :: ·) ih
  | group inner ih | unary op inner ih => exact ih
  | binary op l r ihl ihr | and l r ihl ihr | or l r ihl ihr =>
    rw [bare, names, names, ihl, ihr]

theorem postOrder_bare (locals : List String) (pool : Pool) :
    e.bare.postOrder locals pool = e.postOrder locals pool := by
  induction e generalizing pool with
  | literal | number | string | «variable» => rfl
  | assign name value ih => simp only [bare, postOrder, ih]
  | group inner ih => exact ih pool
  | unary op operand ih => simp only [bare, postOrder, ih]
  | binary op l r ihl ihr | and l r ihl ihr | or l r ihl ihr =>
    simp only [bare, postOrder, ihl, ihr]

/-! ### The code of a tree -/

/-- **Post-order code** is what the translation of a tree writes, and the pool after it has the
constants of the tree. -/
theorem postOrder_eq (scopes : Scopes) (pool : Pool) :
    e.postOrder scopes.names pool = (e.code scopes pool, pool.addAll (e.constants scopes)) := by
  induction e generalizing pool with
  | literal value =>
    rw [postOrder, code, constants, Pool.addAll_nil]
    cases value with
    | nil => rfl
    | bool b => cases b <;> rfl
  | number x => rfl
  | string text => rfl
  | «variable» name =>
    rw [postOrder, code, constants, nameInstruction, nameConstants_eq]
    cases slot? name scopes.names <;> rfl
  | assign name value ih =>
    rw [postOrder, code, constants, nameInstruction, nameConstants_eq, Pool.addAll_append]
    cases slot? name scopes.names <;> simp only [ih] <;> rfl
  | group inner ih => exact ih pool
  | unary op operand ih =>
    rw [postOrder, ih]
    cases op <;> rfl
  | binary op l r ihl ihr =>
    simp only [postOrder, ihl, ihr, code, constants, Pool.addAll_append]
    cases op <;> rfl
  | and l r ihl ihr | or l r ihl ihr =>
    simp only [postOrder, ihl, ihr, code, constants, Pool.addAll_append]
    rfl

end Expr

end Lox
