import Lox.Bytecode.Chunk
import Lox.Compilation.Diagnostic
import Lox.SymbolTable
import Lox.Token.Scan

/-!
# Drafts

A draft is a compilation under way: how far the tokens are read, what has been reported, and the
chunk as far as it is written. Compiling a piece of source is a function from drafts to drafts.

The draft stands between two tokens, the one just passed and the current one. Every byte is written
on the line of the token just passed. Tokens that are errors are reported as the draft comes to
them and are never current.

After a report the draft is *panicking*, and reports nothing more until it has found its footing at
the next statement.

## Main definitions

* `Draft`: the state.
* `Draft.advance`, `Draft.check`, `Draft.expect`: reading tokens.
* `Draft.failAtPrevious`, `Draft.failAtCurrent`, `Draft.synchronize`: reports and recovery.
* `Draft.emitOp` and its kin: writing code. `Draft.patchJump` completes a jump.
* `Draft.stringConstant`: the place of a text in the constant pool.
* `Draft.declareLocal`, `Draft.beginScope`, `Draft.endScope`: scopes.
-/

namespace Lox

/-- A compilation under way. -/
structure Draft where
  /-- The token just passed. -/
  previous : Token
  /-- The tokens from the current one on. At the end of the source there is none. -/
  ahead : List Token
  /-- The empty token at the end of the source, which is current when no token is ahead. -/
  last : Token
  panicking : Bool
  diagnostics : Array Diagnostic
  chunk : Chunk
  scope : LocalScope
  /-- The place in the constant pool of each string that is there. -/
  strings : SymbolTable UInt8
  interner : Interner
  /-- Whether a sequence of declarations has met one that reads no token, so that the sequence
  would never end. -/
  stalled : Bool
  deriving DecidableEq, Repr

namespace Draft

/-! ### Reading tokens -/

/-- The token the draft has come to. -/
def current (d : Draft) : Token := d.ahead.headD d.last

/-- Whether the current token is of a kind. -/
def check (d : Draft) (kind : TokenKind) : Bool := d.current.kind == kind

/-- Records a problem at a token, unless the draft is panicking. From then on it is. -/
def report (d : Draft) (token : Token) (problem : Problem) : Draft :=
  if d.panicking then d
  else { d with panicking := true, diagnostics := d.diagnostics.push (.ofToken token problem) }

/-- Records a problem at the token just passed. -/
def failAtPrevious (d : Draft) (problem : Problem) : Draft := d.report d.previous problem

/-- Records a problem at the current token. -/
def failAtCurrent (d : Draft) (problem : Problem) : Draft := d.report d.current problem

/-- Comes to the first of some tokens that is not an error, reporting the errors before it. -/
def comeTo (d : Draft) : List Token → Draft
  | [] => { d with ahead := [] }
  | token :: rest =>
    match token.kind with
    | .invalid cause => (d.report token (.lexical cause)).comeTo rest
    | _ => { d with ahead := token :: rest }

/-- Passes the current token. -/
def advance (d : Draft) : Draft := { d with previous := d.current }.comeTo d.ahead.tail

/-- Passes the current token if it is of the expected kind, and reports a problem if it is not. -/
def expect (d : Draft) (kind : TokenKind) (what : Expectation) : Draft :=
  if d.check kind then d.advance else d.failAtCurrent (.expected what)

/-- The draft at the start of a source: before its first token, with nothing written. -/
def start (source : String) (maxLocals : Nat) (interner : Interner) : Draft :=
  let tokens := scan source
  let draft : Draft :=
    { previous := .atEnd 0 1, ahead := [], last := tokens.last, panicking := false,
      diagnostics := #[], chunk := .empty, scope := .start maxLocals, strings := .empty, interner,
      stalled := false }
  draft.comeTo tokens.tokens

/-! ### Recovery -/

/-- Whether recovery ends before a token of this kind. -/
def isFooting : TokenKind → Bool
  | .kwClass | .kwFun | .kwVar | .kwFor | .kwIf | .kwWhile | .kwPrint | .kwReturn => true
  | _ => false

/-- Passes tokens up to a footing, a token after a semicolon or the end. The list bounds the number
of tokens passed. -/
def seekFooting : List Token → Draft → Draft
  | [], d => d
  | _ :: bound, d =>
    if d.check .endOfSource || d.previous.kind == .semicolon || isFooting d.current.kind then d
    else seekFooting bound d.advance

/-- Ends panicking, after passing the tokens up to the next statement. -/
def synchronize (d : Draft) : Draft := seekFooting d.ahead { d with panicking := false }

/-! ### Writing code -/

/-- The number of bytes written. -/
def size (d : Draft) : Nat := d.chunk.size

/-- Writes a byte on the line of the token just passed. -/
def emitByte (d : Draft) (byte : UInt8) : Draft :=
  { d with chunk := d.chunk.write byte d.previous.line }

/-- Writes an opcode. -/
def emitOp (d : Draft) (op : OpCode) : Draft := d.emitByte op.toByte

/-- Writes an opcode and an operand of one byte. -/
def emitOpByte (d : Draft) (op : OpCode) (operand : UInt8) : Draft :=
  (d.emitOp op).emitByte operand

/-- The largest distance that an operand can hold. -/
def maxDistance : Nat := 65535

/-- Writes a jump with a placeholder for its distance, and answers where the placeholder is. -/
def emitJump (d : Draft) (op : OpCode) : Nat × Draft :=
  let d := ((d.emitOp op).emitByte 0xFF).emitByte 0xFF
  (d.size - 2, d)

/-- Makes the jump with a placeholder lead to the next byte to be written. -/
def patchJump (d : Draft) (placeholder : Nat) : Draft :=
  let distance := d.size - placeholder - 2
  if distance ≤ maxDistance then { d with chunk := d.chunk.patch placeholder distance }
  else d.failAtPrevious .jumpTooLarge

/-- Writes a jump back to an offset. -/
def emitLoop (d : Draft) (target : Nat) : Draft :=
  let d := d.emitOp .loop
  let distance := d.size - target + 2
  if distance ≤ maxDistance then
    (d.emitByte (Chunk.highByte distance)).emitByte (Chunk.lowByte distance)
  else ((d.failAtPrevious .loopTooLarge).emitByte 0xFF).emitByte 0xFF

/-! ### Constants -/

/-- The number of constants that an operand can name. -/
def maxConstants : Nat := 256

/-- Appends a constant and answers its index, unless the pool is full. -/
def addConstant (d : Draft) (value : Value) : Option UInt8 × Draft :=
  let index := d.chunk.constants.size
  if index < maxConstants then
    (some (UInt8.ofNat index), { d with chunk := d.chunk.addConstant value })
  else (none, d.failAtPrevious .tooManyConstants)

/-- Writes an instruction that pushes a new constant. -/
def emitConstant (d : Draft) (value : Value) : Draft :=
  let (index, d) := d.addConstant value
  d.emitOpByte .constant (index.getD 0)

/-- The index of a string in the constant pool, where it is put the first time. If it does not fit,
that is reported and the index is 0. -/
def stringConstant (d : Draft) (text : String) : UInt8 × Draft :=
  let (symbol, interner) := d.interner.intern text
  let d := { d with interner }
  match d.strings.find? symbol with
  | some index => (index, d)
  | none =>
    match d.addConstant (.string symbol) with
    | (some index, d) => (index, { d with strings := (d.strings.insert symbol index).2 })
    | (none, d) => (0, d)

/-! ### Scopes -/

/-- Opens a scope. -/
def beginScope (d : Draft) : Draft := { d with scope := d.scope.enter }

/-- Closes the innermost scope, and writes a pop for each local that goes with it. -/
def endScope (d : Draft) : Draft :=
  let scope := d.scope.leave
  Nat.repeat (emitOp · .pop) (d.scope.size - scope.size) { d with scope }

/-- Declares a local, or reports why that cannot be. -/
def declareLocal (d : Draft) (name : String) : Draft :=
  match d.scope.declare name with
  | .ok scope => { d with scope }
  | .error cause => d.failAtPrevious (.scope cause)

/-- Marks the latest local as initialized. -/
def completeLocal (d : Draft) : Draft := { d with scope := d.scope.complete }

end Draft

end Lox
