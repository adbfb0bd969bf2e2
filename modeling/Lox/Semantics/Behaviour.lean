import Lox.Bytecode.Machine
import Lox.Compilation
import Lox.Semantics.Store

/-!
# Behaviours

What can be seen of a program that is run: whether it comes to an end, the lines it has printed by
then or the message it stops with, and the globals it leaves, by their names. Nothing in a behaviour
depends on symbols.

## Main definitions

* `Behaviour`: what can be seen of a run.
* `World.Behaves`: the behaviour of a source, compiled and run in a world.
* `World.BehavesInTurn`: the behaviour of two sources, one run after the other.
* `Compilation.data`: the constants of a compilation, without symbols.
-/

namespace Lox

/-- What can be seen of a run. -/
inductive Behaviour where
  | ended (lines : Array String) (globals : String → Option Datum)
  | failed (message : String) (globals : String → Option Datum)
  | endless

/-- The behaviour with lines printed before. They can be seen only if there is an end. -/
def Behaviour.after (lines : Array String) : Behaviour → Behaviour
  | ended more globals => ended (lines ++ more) globals
  | failed message globals => failed message globals
  | endless => endless

/-- What can be seen of a run that has come to an end. -/
def Outcome.behaviour (o : Outcome) : Behaviour :=
  match o.result with
  | .ok lines => .ended lines o.world.globalsByName
  | .error e => .failed e.message o.world.globalsByName

/-! ### Sources -/

/-- A source is compiled without a report in a world, whose interner takes up its strings, and a run
of the chunk comes to an end. -/
def World.Ends (limits : Limits) (w : World) (source : String) (o : Outcome) : Prop :=
  ∃ c w' limit, w.compile limits source = some (c, w') ∧ c.isSuccess = true ∧
    (Machine.start w').run c.chunk limit = some o

/-- A source is compiled without a report in a world, and running the chunk never ends. -/
def World.NeverEnds (limits : Limits) (w : World) (source : String) : Prop :=
  ∃ c w', w.compile limits source = some (c, w') ∧ c.isSuccess = true ∧
    ∀ limit, (Machine.start w').run c.chunk limit = none

/-- How a source behaves that is compiled and run in a world. -/
inductive World.Behaves (limits : Limits) (w : World) (source : String) : Behaviour → Prop
  | halts {o : Outcome} (h : w.Ends limits source o) : Behaves limits w source o.behaviour
  | endless (h : w.NeverEnds limits source) : Behaves limits w source .endless

/-- How two sources behave of which the second is compiled and run in the world that the first
leaves, provided that the first ends normally. -/
inductive World.BehavesInTurn (limits : Limits) (w : World) (first second : String) :
    Behaviour → Prop
  | both {o : Outcome} {lines : Array String} {b : Behaviour} (h : w.Ends limits first o)
      (normal : o.result = .ok lines) (next : o.world.Behaves limits second b) :
      BehavesInTurn limits w first second (b.after lines)
  | failed {o : Outcome} {e : RuntimeError} (h : w.Ends limits first o)
      (error : o.result = .error e) : BehavesInTurn limits w first second o.behaviour
  | endless (h : w.NeverEnds limits first) : BehavesInTurn limits w first second .endless

/-- The constants of a compilation, strings as their texts. -/
def Compilation.data (c : Compilation) : List Datum :=
  c.chunk.constants.toList.map (Value.datum c.interner)

end Lox
