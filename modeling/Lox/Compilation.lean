import Lox.Compilation.Statement
import Lox.World

/-!
# Compilation

`compile` turns a source into a chunk, in one pass over its tokens. It does so for any source: what
is wrong with the source is reported, and a chunk that comes with reports is not meant to be run.

There are sources whose compilation never ends: inside a block at the limit of nesting, recovery
from an error may stop where the next declaration fails again without reading a token. For these,
and only for these, `compile` has no answer.

## Main definitions

* `Limits`: how many locals and how much nesting a source may have.
* `Compilation`: a chunk with the diagnostics.
* `compile`: from sources to compilations.
* `World.compile`: compiling in a world.
-/

namespace Lox

/-- How much of what a source may have. -/
structure Limits where
  /-- The locals alive at once, of which there are never more than `LocalScope.maxSlots`. -/
  locals : Nat := 256
  /-- How deep expressions, blocks and statements may nest. -/
  nesting : Nat := 256
  deriving DecidableEq, Repr, Inhabited

/-- What compiling a source gives: the chunk, the diagnostics in the order of the source, and the
interner with the strings of the source. -/
structure Compilation where
  chunk : Chunk
  diagnostics : Array Diagnostic
  interner : Interner
  deriving DecidableEq, Repr

/-- Whether nothing is wrong with the source. -/
def Compilation.isSuccess (c : Compilation) : Bool := c.diagnostics.isEmpty

/-- The draft of a whole source: all its declarations, and a halt. -/
def Draft.ofSource (limits : Limits) (interner : Interner) (source : String) : Draft :=
  let d := Draft.start source limits.locals interner
  let compile := declaration limits.nesting (statement limits.nesting)
  (declarations compile .endOfSource d.ahead d).advance.emitOp .halt

/-- Compiles a source, unless that would never end. -/
def compile (limits : Limits) (interner : Interner) (source : String) : Option Compilation :=
  let d := Draft.ofSource limits interner source
  if d.stalled then none else some ⟨d.chunk, d.diagnostics, d.interner⟩

/-- Compiles a source in a world, whose interner takes up the strings of the source. -/
def World.compile (limits : Limits) (w : World) (source : String) : Option (Compilation × World) :=
  (Lox.compile limits w.interner source).map fun c => (c, { w with interner := c.interner })

end Lox
