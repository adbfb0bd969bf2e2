import Lox.Token

/-!
# Scanning

`scan` cuts a source text into tokens. Between tokens it passes over a *gap*: blanks, and comments
from `//` up to the end of the line. At the first character after a gap stands the longest token
that starts there, and if none starts there, that one character is an error of its own.

A token is described by its kind and its number of characters, so that the text of a token and the
text after it are the two halves of one cut and nothing can be lost between them.

## Main definitions

* `Place`: the text still to be read, with the byte offset and line it starts at.
* `Place.skipGap`: passes over blanks and comments.
* `longestToken`: the kind and size of the token at the front of a text.
* `scan`: all tokens of a source, and the empty token at its end.
-/

namespace Lox

/-! ### Character classes

The source alphabet outside strings and comments is ASCII: any other character starts no token. -/

/-- Space, tab, carriage return, line feed and form feed. -/
def isBlank (c : Char) : Bool :=
  c == ' ' || c == '\t' || c == '\r' || c == '\n' || c == '\x0c'

/-- Whether a word may start with the character. -/
def isWordStart (c : Char) : Bool :=
  c.isAlpha || c == '_'

/-- Whether a word may go on with the character. -/
def isWordPart (c : Char) : Bool :=
  isWordStart c || c.isDigit

/-! ### The token at the front of a text -/

/-- The size of the fraction at the front of a text: a point and the digits after it, or nothing
if no digit follows the point. -/
def fractionSize : List Char → Nat
  | '.' :: rest =>
    match (rest.takeWhile Char.isDigit).length with
    | 0 => 0
    | digits + 1 => digits + 2
  | _ => 0

/-- The size of the number whose first digit stands before `rest`. -/
def numberSize (rest : List Char) : Nat :=
  1 + (rest.takeWhile Char.isDigit).length + fractionSize (rest.dropWhile Char.isDigit)

/-- The string whose opening quote stands before `rest`. It may span lines and knows no escapes;
without a closing quote it is an error that runs to the end. -/
def stringToken (rest : List Char) : TokenKind × Nat :=
  let body := (rest.takeWhile (· != '"')).length
  if body < rest.length then (.string, body + 2)
  else (.invalid .unterminatedString, body + 1)

/-- The operator of two characters if an `=` is at the front of `rest`, and otherwise that of
one. -/
def withEqual (rest : List Char) (two one : TokenKind) : TokenKind × Nat :=
  if rest.head? = some '=' then (two, 2) else (one, 1)

/-- The punctuation that starts with `c`, two characters long if an `=` makes it so. -/
def punctuation (c : Char) (rest : List Char) : TokenKind × Nat :=
  match c with
  | '(' => (.leftParen, 1)
  | ')' => (.rightParen, 1)
  | '{' => (.leftBrace, 1)
  | '}' => (.rightBrace, 1)
  | ',' => (.comma, 1)
  | '.' => (.dot, 1)
  | '-' => (.minus, 1)
  | '+' => (.plus, 1)
  | ';' => (.semicolon, 1)
  | '/' => (.slash, 1)
  | '*' => (.star, 1)
  | '!' => withEqual rest .bangEqual .bang
  | '=' => withEqual rest .equalEqual .equal
  | '>' => withEqual rest .greaterEqual .greater
  | '<' => withEqual rest .lessEqual .less
  | _ => (.invalid .unexpectedCharacter, 1)

/-- The kind and the number of characters of the longest token at the front of `c :: rest`. -/
def longestToken (c : Char) (rest : List Char) : TokenKind × Nat :=
  if isWordStart c then
    let word := c :: rest.takeWhile isWordPart
    (.ofWord (String.ofList word), word.length)
  else if c.isDigit then (.number, numberSize rest)
  else if c == '"' then stringToken rest
  else punctuation c rest

theorem numberSize_pos (rest : List Char) : 0 < numberSize rest := by
  rw [numberSize]
  omega

theorem stringToken_size_pos (rest : List Char) : 0 < (stringToken rest).2 := by
  rw [stringToken]
  by_cases hclosed : (rest.takeWhile (· != '"')).length < rest.length
  · rw [if_pos hclosed]
    exact Nat.succ_pos _
  · rw [if_neg hclosed]
    exact Nat.succ_pos _

theorem withEqual_size_pos (rest : List Char) (two one : TokenKind) :
    0 < (withEqual rest two one).2 := by
  rw [withEqual]
  by_cases hequal : rest.head? = some '='
  · rw [if_pos hequal]
    exact Nat.succ_pos _
  · rw [if_neg hequal]
    exact Nat.succ_pos _

theorem punctuation_size_pos (c : Char) (rest : List Char) : 0 < (punctuation c rest).2 := by
  rw [punctuation.eq_def]
  split <;> simp [withEqual_size_pos]

/-- Every token has at least one character. -/
theorem longestToken_size_pos (c : Char) (rest : List Char) : 0 < (longestToken c rest).2 := by
  rw [longestToken]
  by_cases hword : isWordStart c
  · rw [if_pos hword]
    exact Nat.succ_pos _
  rw [if_neg hword]
  by_cases hdigit : c.isDigit
  · rw [if_pos hdigit]
    exact numberSize_pos rest
  rw [if_neg hdigit]
  by_cases hquote : c == '"'
  · rw [if_pos hquote]
    exact stringToken_size_pos rest
  rw [if_neg hquote]
  exact punctuation_size_pos c rest

/-! ### Places -/

/-- The rest of a source text, with the byte offset and the line of its first character. -/
structure Place where
  rest : List Char
  offset : Nat
  line : Nat
  deriving DecidableEq, Repr

namespace Place

/-- The place before the first character of a source. -/
def start (source : String) : Place := ⟨source.toList, 0, 1⟩

/-- The place after the next `size` characters. -/
def move (p : Place) (size : Nat) : Place :=
  let passed := p.rest.take size
  ⟨p.rest.drop size, p.offset + (String.ofList passed).utf8ByteSize,
    p.line + passed.count '\n'⟩

/-- The line after passing `c` on `line`. -/
def lineAfter (c : Char) (line : Nat) : Nat :=
  if c == '\n' then line + 1 else line

/-- Passes over blanks and comments from a place given by its parts; `inComment` says whether the
place is inside a comment. A comment ends before its line feed, which is then a blank. -/
def skipFrom (inComment : Bool) : List Char → Nat → Nat → Place
  | [], offset, line => ⟨[], offset, line⟩
  | c :: rest, offset, line =>
    if inComment then
      skipFrom (c != '\n') rest (offset + c.utf8Size) (lineAfter c line)
    else if isBlank c then
      skipFrom false rest (offset + c.utf8Size) (lineAfter c line)
    else if c == '/' && rest.head? == some '/' then
      skipFrom true rest (offset + c.utf8Size) line
    else ⟨c :: rest, offset, line⟩

/-- The place where the next token starts, or the end of the source. -/
def skipGap (p : Place) : Place := skipFrom false p.rest p.offset p.line

/-- The next token and the place after it, unless only a gap is left. -/
def next? (p : Place) : Option (Token × Place) :=
  let p := p.skipGap
  match p.rest with
  | [] => none
  | c :: rest =>
    let (kind, size) := longestToken c rest
    let after := p.move size
    some (⟨kind, String.ofList (p.rest.take size), ⟨p.offset, after.offset⟩, after.line⟩, after)

theorem length_rest_skipFrom_le (inComment : Bool) (rest : List Char) (offset line : Nat) :
    (skipFrom inComment rest offset line).rest.length ≤ rest.length := by
  induction rest generalizing inComment offset line with
  | nil => simp [skipFrom]
  | cons c rest ih =>
    rw [skipFrom]
    by_cases hcomment : inComment
    · rw [if_pos hcomment]
      exact Nat.le_succ_of_le (ih _ _ _)
    rw [if_neg hcomment]
    by_cases hblank : isBlank c
    · rw [if_pos hblank]
      exact Nat.le_succ_of_le (ih _ _ _)
    rw [if_neg hblank]
    by_cases hslashes : c == '/' && rest.head? == some '/'
    · rw [if_pos hslashes]
      exact Nat.le_succ_of_le (ih _ _ _)
    exact Nat.le_of_eq (congrArg (fun q : Place => q.rest.length) (if_neg hslashes))

/-- Reading a token leaves less text. -/
theorem length_rest_lt_of_next? {p q : Place} {t : Token} (h : p.next? = some (t, q)) :
    q.rest.length < p.rest.length := by
  have hgap : p.skipGap.rest.length ≤ p.rest.length := length_rest_skipFrom_le ..
  rw [next?] at h
  match hrest : p.skipGap.rest with
  | [] => simp [hrest] at h
  | c :: rest =>
    have hpos := longestToken_size_pos c rest
    simp only [hrest, Option.some.injEq, Prod.mk.injEq] at h
    obtain ⟨-, rfl⟩ := h
    rw [hrest, List.length_cons] at hgap
    rw [move, List.length_drop, hrest, List.length_cons]
    omega

/-- The tokens from a place on, after those of `found`, which are in reverse order. -/
def tokensOnto (found : List Token) (p : Place) : List Token :=
  match _h : p.next? with
  | none => found.reverse
  | some (t, q) => tokensOnto (t :: found) q
termination_by p.rest.length
decreasing_by exact length_rest_lt_of_next? _h

/-- The tokens from a place on. -/
def tokens (p : Place) : List Token := tokensOnto [] p

theorem tokensOnto_eq (found : List Token) (p : Place) :
    tokensOnto found p = found.reverse ++ tokens p := by
  suffices h : ∀ n found (p : Place), p.rest.length = n →
      tokensOnto found p = found.reverse ++ tokensOnto [] p from h _ found p rfl
  intro n
  induction n using Nat.strongRecOn with
  | ind n ih =>
    intro found p hn
    rw [tokensOnto, tokensOnto.eq_def [] p]
    split
    · simp
    · next t q hq =>
      have hlt := length_rest_lt_of_next? hq
      rw [ih _ (hn ▸ hlt) (t :: found) q rfl, ih _ (hn ▸ hlt) [t] q rfl]
      simp

/-- The tokens from a place on are the next token and the tokens after it. -/
theorem tokens_eq (p : Place) :
    p.tokens = match p.next? with
      | none => []
      | some (t, q) => t :: q.tokens := by
  rw [tokens, tokensOnto]
  split
  · next h => simp [h]
  · next t q h => simp [h, tokensOnto_eq]

end Place

/-! ### Whole sources -/

/-- The tokens of a source, errors included, and the empty token at its end. -/
structure Scan where
  tokens : List Token
  last : Token
  deriving DecidableEq, Repr

/-- The empty token at the end of a source. -/
def endToken (source : String) : Token :=
  Token.atEnd source.utf8ByteSize (1 + source.toList.count '\n')

/-- Cuts a source into its tokens. -/
def scan (source : String) : Scan :=
  ⟨(Place.start source).tokens, endToken source⟩

end Lox
