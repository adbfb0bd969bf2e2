import Lox.Token.Scan

/-!
# The patterns of tokens

What the tokens of a source are, said without scanning. Each kind of token has a pattern, and so has
the text between tokens. A source is tiled by tokens and gaps: at the end of each gap stands the
longest text that has the pattern of a token, and where there is none, the character there is an
error.

## Main definitions

* `TokenKind.HasText`: the texts of a kind of token.
* `Skipped`, `Gap`: the texts that are no tokens, and what may stand between two tokens.
* `TokenKind.Longest`: the longest text at the front of a text, with its kind.
* `Token.StandsAt`: a token has the right kind, text, span and line for its place.
* `Tiles`: a text consists of tokens and gaps.
-/

namespace Lox

/-- The number of bytes of a text. -/
def byteSize (text : List Char) : Nat := (String.ofList text).utf8ByteSize

@[simp] theorem byteSize_nil : byteSize [] = 0 := rfl

@[simp] theorem byteSize_append (text more : List Char) :
    byteSize (text ++ more) = byteSize text + byteSize more := by
  rw [byteSize, String.ofList_append, String.utf8ByteSize_append, byteSize, byteSize]

theorem byteSize_pos {text : List Char} (h : text ≠ []) : 0 < byteSize text := by
  refine Nat.pos_of_ne_zero fun hzero => h ?_
  have hempty : String.ofList text = "" := String.utf8ByteSize_eq_zero_iff.mp hzero
  rw [← String.toList_ofList (l := text), hempty]
  rfl

/-! ### Patterns -/

namespace TokenKind

/-- The punctuation and the kinds it stands for. -/
def symbols : List (List Char × TokenKind) :=
  [(['('], leftParen), ([')'], rightParen), (['{'], leftBrace), (['}'], rightBrace),
   ([','], comma), (['.'], dot), (['-'], minus), (['+'], plus), ([';'], semicolon),
   (['/'], slash), (['*'], star), (['!'], bang), (['!', '='], bangEqual), (['='], equal),
   (['=', '='], equalEqual), (['>'], greater), (['>', '='], greaterEqual), (['<'], less),
   (['<', '='], lessEqual)]

/-- The texts of a kind of token. An open string counts as a token of the kind of its error. -/
inductive HasText : TokenKind → List Char → Prop where
  | symbol {kind : TokenKind} {text : List Char} (mem : (text, kind) ∈ symbols) : HasText kind text
  | keyword {kind : TokenKind} {word : String} (mem : (word, kind) ∈ keywords) :
      HasText kind word.toList
  | word {c : Char} {text : List Char} (start : isWordStart c)
      (parts : ∀ x ∈ text, isWordPart x) : HasText identifier (c :: text)
  | quoted {body : List Char} (body_closed : '"' ∉ body) : HasText string ('"' :: body ++ ['"'])
  | openQuote {body : List Char} (body_open : '"' ∉ body) :
      HasText (invalid .unterminatedString) ('"' :: body)
  | whole {digits : List Char} (ne_nil : digits ≠ []) (all : ∀ x ∈ digits, x.isDigit) :
      HasText number digits
  | fraction {whole part : List Char} (whole_ne_nil : whole ≠ []) (whole_all : ∀ x ∈ whole, x.isDigit)
      (part_ne_nil : part ≠ []) (part_all : ∀ x ∈ part, x.isDigit) :
      HasText number (whole ++ '.' :: part)

/-- The longest text at the front of `rest` that has a pattern. If it has several, the kind is that
of a keyword and not that of an identifier. -/
structure Longest (kind : TokenKind) (text rest : List Char) : Prop where
  hasText : kind.HasText text
  front : text <+: rest
  longest : ∀ other found, HasText other found → found <+: rest → found.length ≤ text.length
  first : ∀ other, HasText other text → other = kind ∨ other = identifier

/-- A token of this kind and text may stand before `after`. -/
inductive Stands : TokenKind → List Char → List Char → Prop where
  | token {kind : TokenKind} {text after : List Char} (error? : kind.error? = none)
      (longest : kind.Longest text (text ++ after)) : Stands kind text after
  /-- An open string goes up to the end. -/
  | openQuote {body : List Char} (body_open : '"' ∉ body) :
      Stands (invalid .unterminatedString) ('"' :: body) []
  /-- A character at which no token starts. -/
  | stray {c : Char} {after : List Char}
      (none : ∀ other found, HasText other found → ¬found <+: c :: after) :
      Stands (invalid .unexpectedCharacter) [c] after

end TokenKind

/-! ### Gaps -/

/-- The texts that are passed over: blanks, and comments up to the end of a line. -/
inductive Skipped : List Char → Prop where
  | blanks {text : List Char} (ne_nil : text ≠ []) (all : ∀ c ∈ text, isBlank c) : Skipped text
  | comment {body : List Char} (body_line : '\n' ∉ body) : Skipped ('/' :: '/' :: body)

/-- What may stand before `rest` where that starts with a token or is nothing: blanks and comments,
each of which goes on up to a line feed or the end. -/
inductive Gap (rest : List Char) : List Char → Prop where
  | empty : Gap rest []
  | blank {c : Char} {gap : List Char} (blank : isBlank c) (more : Gap rest gap) : Gap rest (c :: gap)
  | comment {body gap : List Char} (body_line : '\n' ∉ body)
      (ends : ∀ c ∈ (gap ++ rest).head?, c = '\n') (more : Gap rest gap) :
      Gap rest ('/' :: '/' :: body ++ gap)

/-! ### Tiles -/

/-- The token has the text `text`, which stands between `before` and `after`, and is what a token
there has to be. -/
structure Token.StandsAt (t : Token) (before text after : List Char) : Prop where
  ne_nil : text ≠ []
  lexeme : t.lexeme = String.ofList text
  span : t.span = ⟨byteSize before, byteSize (before ++ text)⟩
  line : t.line = 1 + (before ++ text).count '\n'
  unskipped : ∀ skipped, Skipped skipped → ¬skipped <+: text ++ after
  stands : t.kind.Stands text after

/-- The text `rest`, which stands behind `before`, consists of the tokens, in this order, and gaps
before, between and after them. -/
inductive Tiles : (before rest : List Char) → List Token → Prop where
  | finish {before gap : List Char} (gap_end : Gap [] gap) : Tiles before gap []
  | token {before gap text after : List Char} {t : Token} {tokens : List Token}
      (gap_before : Gap (text ++ after) gap) (stands : t.StandsAt (before ++ gap) text after)
      (more : Tiles (before ++ gap ++ text) after tokens) :
      Tiles before (gap ++ text ++ after) (t :: tokens)

end Lox
