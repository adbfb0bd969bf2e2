import Lox.Bytecode.Machine
import Lox.Compilation

/-!
# Sessions

A session is the life of a world: its host has texts interned and looked up, compiles sources in the
world and runs what has been compiled. The session keeps a record of the symbols that the world has
given out, each with the text it was given out for.

The record is kept from outside. What a compilation interns is found out in a world of its own, and
what an instruction interns is read off the stack before it is executed.

## Main definitions

* `Issue`: a symbol and the text it was given out for.
* `compiledTexts`, `Machine.joined?`, `Machine.trace`: what compilations and runs intern.
* `Session.serve`: what a request does.
-/

namespace Lox

/-! ### What is interned -/

/-- A symbol and the text it was given out for. -/
structure Issue where
  symbol : Symbol
  text : String
  deriving DecidableEq, Repr

/-- Interns some texts, and answers what has been issued for them. -/
def Interner.internAll (i : Interner) : List String → List Issue × Interner
  | [] => ([], i)
  | text :: texts =>
    let rest := (i.intern text).2.internAll texts
    (⟨(i.intern text).1, text⟩ :: rest.1, rest.2)

/-- The texts that a compilation of a source interns, in the order in which they are first met: those
that a new interner holds afterwards. -/
def compiledTexts (limits : Limits) (source : String) : List String :=
  match compile limits .empty source with
  | some c => c.interner.texts.toList
  | none => []

namespace Machine

/-- The concatenation of the two values on top of the stack, if they are strings. -/
def concatenation? (m : Machine) : Option String :=
  match m.stack.back?, m.stack.pop.back? with
  | some (.string b), some (.string a) =>
    some (m.world.interner.text a ++ m.world.interner.text b)
  | _, _ => none

/-- The text that the instruction at the offset of the machine interns. -/
def joined? (c : Chunk) (m : Machine) : Option String :=
  if (c.code[m.offset]?).bind OpCode.ofByte? = some .add then m.concatenation? else none

/-- Executes at most a number of instructions, and answers the texts interned and the machine as it
is then. -/
def trace (c : Chunk) : Nat → Machine → List String × Machine
  | 0, m => ([], m)
  | bound + 1, m =>
    match m.step c with
    | .running next =>
      let (texts, last) := next.trace c bound
      ((m.joined? c).toList ++ texts, last)
    | _ => ([], m)

end Machine

/-! ### Sessions -/

/-- What the host of a world asks for. -/
inductive Session.Request where
  | intern (text : String)
  | find (text : String)
  | compile (limits : Limits) (source : String)
  /-- To run one of the chunks compiled so far for a number of instructions, or until it ends. -/
  | run (index bound : Nat)
  deriving DecidableEq, Repr

/-- A world, what has been compiled in it, and what it has issued. -/
structure Session where
  world : World
  chunks : Array Chunk
  issued : List Issue
  deriving DecidableEq, Repr

namespace Session

/-- A session in which nothing has happened. -/
def new : Session := ⟨.empty, #[], []⟩

/-- The machine in the midst of a run of a chunk. -/
def machine (s : Session) (c : Chunk) (bound : Nat) : Machine :=
  ((Machine.start s.world).trace c bound).2

/-- Adds what is issued for some texts to the record. -/
def record (s : Session) (texts : List String) : List Issue :=
  s.issued ++ (s.world.interner.internAll texts).1

/-- Interns a text. -/
def intern (s : Session) (text : String) : Session :=
  { s with world := (s.world.intern text).2, issued := s.record [text] }

/-- Compiles a source, which may fail, unless that would never end. -/
def compile (s : Session) (limits : Limits) (source : String) : Option Session :=
  (s.world.compile limits source).map fun (c, world) =>
    ⟨world, s.chunks.push c.chunk, s.record (compiledTexts limits source)⟩

/-- Runs a chunk for a number of instructions, or until it ends. -/
def run (s : Session) (c : Chunk) (bound : Nat) : Session :=
  { s with
    world := (s.machine c bound).world
    issued := s.record ((Machine.start s.world).trace c bound).1 }

/-- What a request does. A compilation that never ends is the end of the session. -/
def serve (s : Session) : Request → Option Session
  | .intern text => some (s.intern text)
  | .find _ => some s
  | .compile limits source => s.compile limits source
  | .run index bound =>
    match s.chunks[index]? with
    | some c => some (s.run c bound)
    | none => some s

/-- What some requests do, one after the other. -/
def serveAll (s : Session) (requests : List Request) : Option Session :=
  requests.foldlM serve s

end Session

end Lox
