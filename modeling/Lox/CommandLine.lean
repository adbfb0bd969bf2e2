import Lox.Bytecode.Listing
import Lox.Compilation

/-!
# The command line

The command compiles a script, or each line of an interactive session, and shows what was asked
for: the tokens, the listing of the chunk, or what is wrong with the source. This module decides
what is shown; reading and printing are left to the program.

## Main definitions

* `Options`: what the arguments ask for, with `Options.ofArguments`.
* `Reply`: what is shown for one source.
* `reply`: compiles a source and shows it.
-/

namespace Lox

/-- What the arguments of the command ask for. -/
structure Options where
  /-- The script to compile; without one the session is interactive. -/
  script : Option String := none
  disassemble : Bool := false
  tokens : Bool := false
  deriving DecidableEq, Repr

/-- Reads the arguments. Of several scripts the last one counts. -/
def Options.ofArguments : List String → Except String Options
  | [] => .ok {}
  | argument :: rest => do
    let options ← ofArguments rest
    match argument with
    | "-d" | "--disassemble" => return { options with disassemble := true }
    | "-t" | "--tokens" => return { options with tokens := true }
    | _ =>
      if argument.startsWith "-" then throw ("unexpected argument '" ++ argument ++ "'")
      else return { options with script := options.script.or (some argument) }

/-- What is shown for a source: lines for the output and lines for errors. -/
structure Reply where
  output : List String
  errors : List String
  interner : Interner
  deriving DecidableEq, Repr

/-- A line that shows a token. -/
def Token.row (t : Token) : String :=
  let what := match t.kind.error? with
    | some cause => cause.message
    | none => t.kind.name
  Listing.column t.line ++ " " ++ what ++ " " ++ t.lexeme

/-- Compiles a source under a name. The listing is shown only if nothing is wrong. -/
def reply (options : Options) (interner : Interner) (name source : String) : Reply :=
  let tokens := if options.tokens then (scan source).tokens.map Token.row else []
  match compile {} interner source with
  | none => ⟨tokens, ["compiling " ++ name ++ " would never end"], interner⟩
  | some c =>
    if c.isSuccess then
      let listing := if options.disassemble then [Listing.chunk c.interner c.chunk name] else []
      ⟨tokens ++ listing, [], c.interner⟩
    else ⟨tokens, c.diagnostics.toList.map Diagnostic.message, c.interner⟩

end Lox
