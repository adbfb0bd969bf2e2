/-!
# Tokens

A token is a piece of source text together with what it is and where it stands. Positions are
counted in UTF-8 bytes, lines from 1.

A piece of text that starts no token still yields one, of kind `TokenKind.invalid` with the cause
as its argument, so that a reader of tokens never has to ask the scanner what went wrong.

## Main definitions

* `TokenKind`: the kinds of token, `TokenKind.name` the name each has in token dumps.
* `Token`: kind, text, span and line.
* `TokenKind.ofWord`: whether a word is a keyword or an identifier.
-/

namespace Lox

/-- Why a piece of source text is no token. -/
inductive LexicalError where
  | unexpectedCharacter
  | unterminatedString
  deriving DecidableEq, Repr, Inhabited

/-- The sentence a user reads about a lexical error. -/
def LexicalError.message : LexicalError → String
  | .unexpectedCharacter => "Unexpected character."
  | .unterminatedString => "Unterminated string."

/-- What a token is. Keywords carry the mark `kw`; `invalid` marks text that is no token. -/
inductive TokenKind where
  | leftParen | rightParen | leftBrace | rightBrace
  | comma | dot | minus | plus | semicolon | slash | star
  | bang | bangEqual | equal | equalEqual
  | greater | greaterEqual | less | lessEqual
  | identifier | string | number
  | kwAnd | kwClass | kwElse | kwFalse | kwFor | kwFun | kwIf | kwNil
  | kwOr | kwPrint | kwReturn | kwSuper | kwThis | kwTrue | kwVar | kwWhile
  | invalid (cause : LexicalError)
  | endOfSource
  deriving DecidableEq, Repr, Inhabited

namespace TokenKind

/-- The upper-case name used in token dumps. -/
def name : TokenKind → String
  | leftParen => "LEFT_PAREN"
  | rightParen => "RIGHT_PAREN"
  | leftBrace => "LEFT_BRACE"
  | rightBrace => "RIGHT_BRACE"
  | comma => "COMMA"
  | dot => "DOT"
  | minus => "MINUS"
  | plus => "PLUS"
  | semicolon => "SEMICOLON"
  | slash => "SLASH"
  | star => "STAR"
  | bang => "BANG"
  | bangEqual => "BANG_EQUAL"
  | equal => "EQUAL"
  | equalEqual => "EQUAL_EQUAL"
  | greater => "GREATER"
  | greaterEqual => "GREATER_EQUAL"
  | less => "LESS"
  | lessEqual => "LESS_EQUAL"
  | identifier => "IDENTIFIER"
  | string => "STRING"
  | number => "NUMBER"
  | kwAnd => "AND"
  | kwClass => "CLASS"
  | kwElse => "ELSE"
  | kwFalse => "FALSE"
  | kwFor => "FOR"
  | kwFun => "FUN"
  | kwIf => "IF"
  | kwNil => "NIL"
  | kwOr => "OR"
  | kwPrint => "PRINT"
  | kwReturn => "RETURN"
  | kwSuper => "SUPER"
  | kwThis => "THIS"
  | kwTrue => "TRUE"
  | kwVar => "VAR"
  | kwWhile => "WHILE"
  | invalid _ => "ERROR"
  | endOfSource => "EOF"

/-- The reserved words and the kinds they stand for. -/
def keywords : List (String × TokenKind) :=
  [("and", kwAnd), ("class", kwClass), ("else", kwElse), ("false", kwFalse), ("for", kwFor),
   ("fun", kwFun), ("if", kwIf), ("nil", kwNil), ("or", kwOr), ("print", kwPrint),
   ("return", kwReturn), ("super", kwSuper), ("this", kwThis), ("true", kwTrue), ("var", kwVar),
   ("while", kwWhile)]

/-- The kind of a word: its keyword kind if it is reserved, and an identifier otherwise. -/
def ofWord (word : String) : TokenKind :=
  (keywords.lookup word).getD identifier

/-- The cause, for a token that is an error. -/
def error? : TokenKind → Option LexicalError
  | invalid cause => some cause
  | _ => none

end TokenKind

/-- A half-open range of byte offsets in a source text. -/
structure Span where
  start : Nat
  stop : Nat
  deriving DecidableEq, Repr, Inhabited

/-- A token of a source text. The line is the one its last character is on. -/
structure Token where
  kind : TokenKind
  lexeme : String
  span : Span
  line : Nat
  deriving DecidableEq, Repr, Inhabited

/-- The empty token at a byte offset, of kind `TokenKind.endOfSource`. -/
def Token.atEnd (offset line : Nat) : Token :=
  ⟨.endOfSource, "", ⟨offset, offset⟩, line⟩

end Lox
