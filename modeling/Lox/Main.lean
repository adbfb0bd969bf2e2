import Lox.CommandLine

/-!
# The program

Reads a script or the lines of an interactive session and prints what `Lox.reply` shows.
-/

namespace Lox

/-- The exit code for a script with something wrong in it. -/
def dataError : UInt32 := 65

/-- Prints a reply, and answers whether it is free of errors. -/
def print (r : Reply) : IO Bool := do
  r.output.forM fun text => IO.println text.trimAsciiEnd.copy
  r.errors.forM IO.eprintln
  return r.errors.isEmpty

/-- Compiles line after line, each with the strings of the lines before it, up to the end of the
input. -/
partial def interact (options : Options) (interner : Interner) (input : IO.FS.Stream) :
    IO Unit := do
  IO.print ">> "
  (← IO.getStdout).flush
  let line ← input.getLine
  if line.isEmpty then return
  let r := reply options interner "repl" line
  discard <| print r
  interact options r.interner input

end Lox

/-- Compiles the script named by the arguments, or starts an interactive session. -/
def main (arguments : List String) : IO UInt32 := do
  match Lox.Options.ofArguments arguments with
  | .error message =>
    IO.eprintln message
    return 2
  | .ok options =>
    match options.script with
    | some path =>
      let source ← IO.FS.readFile path
      let clean ← Lox.print (Lox.reply options .empty path source)
      return if clean then 0 else Lox.dataError
    | none =>
      Lox.interact { options with disassemble := true } .empty (← IO.getStdin)
      return 0
