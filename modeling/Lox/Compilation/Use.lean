import Lox.Compilation.Expression

/-!
# Texts in the constant pool

Compiling looks a text up in the constant pool for a string literal, for a global that is read or
assigned, and for a global that is declared. The text is that of a token, and is looked up as soon as
the token has been passed. What is answered is the operand of an instruction. That of a literal is
written at once; that of a name comes behind the value that the name is given.

## Main definitions

* `Role`: what a text is looked up for, with the instructions for it.
* `Use`: a text being looked up, with `Use.text`, `Use.operand` and the draft afterwards.
* `Use.Arises`: whether compiling looks the text up.
* `Use.MeetsFullPool`: the text is not in the pool, and there is no room for it.
-/

namespace Lox

/-- What a text is looked up for. -/
inductive Role where
  /-- The value of a string literal. -/
  | literal
  /-- The name of a global that is read or assigned. -/
  | access
  /-- The name of a global that is declared. -/
  | declaration
  deriving DecidableEq, Repr

/-- The instructions whose operand the text is. -/
def Role.opCodes : Role → List OpCode
  | literal => [.constant]
  | access => [.getGlobal, .setGlobal]
  | declaration => [.defineGlobal]

theorem Role.operand_of_mem {role : Role} : ∀ op ∈ role.opCodes, op.operand = .constant := by
  cases role <;> decide

/-- The text is not in the pool, and there is no room for it. -/
def Draft.MeetsFullPool (d : Draft) (text : String) : Prop :=
  d.strings.find? (d.interner.intern text).1 = none ∧ maxConstants ≤ d.chunk.constants.size

instance (d : Draft) (text : String) : Decidable (d.MeetsFullPool text) :=
  inferInstanceAs (Decidable (_ ∧ _))

/-- A draft looks up the text of the token that it has just passed. -/
structure Use where
  draft : Draft
  role : Role

namespace Use

/-- The token of the text. -/
def token (u : Use) : Token := u.draft.previous

/-- The text: what is between the quotes of a literal, or a name. -/
def text (u : Use) : String :=
  match u.role with
  | .literal => Draft.unquote u.token.lexeme
  | .access | .declaration => u.token.lexeme

/-- The index that is answered. -/
def operand (u : Use) : UInt8 := (u.draft.stringConstant u.text).1

/-- The draft afterwards. -/
def after (u : Use) : Draft := (u.draft.stringConstant u.text).2

/-- The text is looked up. A name that is read or assigned is that of a global if it is not the name
of a local. Where the name of a declared global is missing, which has been reported then, the keyword
stands in for it. -/
def Arises (u : Use) : Prop :=
  match u.role with
  | .literal => u.token.kind = .string
  | .access => u.token.kind = .identifier ∧ u.draft.scope.resolve u.text = .ok none
  | .declaration => u.draft.scope.isGlobal = true ∧
      (u.token.kind = .identifier ∨ u.token.kind = .kwVar ∧ u.draft.panicking = true)

instance (outcome : Except ScopeError (Option Nat)) : Decidable (outcome = .ok none) :=
  match outcome with
  | .ok none => .isTrue rfl
  | .ok (some _) => .isFalse (by simp)
  | .error _ => .isFalse (by simp)

instance (u : Use) : Decidable u.Arises :=
  match u with
  | ⟨d, .literal⟩ => inferInstanceAs (Decidable (d.previous.kind = .string))
  | ⟨d, .access⟩ => inferInstanceAs (Decidable
      (d.previous.kind = .identifier ∧ d.scope.resolve d.previous.lexeme = .ok none))
  | ⟨d, .declaration⟩ => inferInstanceAs (Decidable (d.scope.isGlobal = true ∧
      (d.previous.kind = .identifier ∨ d.previous.kind = .kwVar ∧ d.panicking = true)))

/-- The text is not in the pool, and there is no room for it. -/
def MeetsFullPool (u : Use) : Prop := u.draft.MeetsFullPool u.text

instance (u : Use) : Decidable u.MeetsFullPool :=
  inferInstanceAs (Decidable (u.draft.MeetsFullPool u.text))

end Use

end Lox
