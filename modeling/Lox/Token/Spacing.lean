import Lox.Token.Scan

/-!
# Spacing

Texts that a printer of tokens puts between them: blanks, and comments that it ends with a line feed.
Such a text can be put between any two tokens if it starts with a blank. A comment alone cannot: behind
a slash it would not start where the slash ends.

## Main definitions

* `Spacing`: blanks and comments.
* `IsSeparator`: spacing that starts with a blank.
* `Spaced`: lexemes with separators between them.
-/

namespace Lox

/-- Blanks and comments, each comment ended by a line feed. -/
inductive Spacing : List Char → Prop where
  | empty : Spacing []
  | blank {c : Char} {rest : List Char} (blank : isBlank c) (more : Spacing rest) :
      Spacing (c :: rest)
  | comment {body rest : List Char} (body_line : '\n' ∉ body) (more : Spacing rest) :
      Spacing ('/' :: '/' :: (body ++ '\n' :: rest))

/-- Spacing that starts with a blank. -/
structure IsSeparator (text : List Char) : Prop where
  spacing : Spacing text
  blank : ∃ c ∈ text.head?, isBlank c

/-- The text consists of the lexemes, in this order, with a separator behind each of them but possibly
the last. -/
inductive Spaced : (lexemes : List String) → (text : List Char) → Prop where
  | nothing : Spaced [] []
  | last (lexeme : String) : Spaced [lexeme] lexeme.toList
  | next {lexemes : List String} {gap rest : List Char} (lexeme : String) (separates : IsSeparator gap)
      (more : Spaced lexemes rest) : Spaced (lexeme :: lexemes) (lexeme.toList ++ gap ++ rest)

end Lox
