/-!
# Local variables

Local variables live on the stack in the order in which they are declared, so the slot of a local
is the number of locals declared before it that are still alive. A local has no depth until its
initializer is complete; until then its name can be neither read nor declared again.

Locals are kept with the innermost first, since that is the order in which names are looked up.

## Main definitions

* `LocalScope`: the locals alive, the depth of the innermost scope and the limit on locals.
* `LocalScope.enter`, `LocalScope.leave`: opening and closing a scope.
* `LocalScope.declare`, `LocalScope.complete`: the two halves of a declaration.
* `LocalScope.resolve`: the slot a name stands for.
-/

namespace Lox

/-- Why a name cannot be declared or read. -/
inductive ScopeError where
  | redeclared
  | tooManyLocals
  | readInOwnInitializer
  deriving DecidableEq, Repr, Inhabited

/-- The sentence a user reads about a scope error. -/
def ScopeError.message : ScopeError → String
  | .redeclared => "Already a variable with this name in this scope."
  | .tooManyLocals => "Too many local variables in function."
  | .readInOwnInitializer => "Can't read local variable in its own initializer."

/-- A local variable: its name, and the depth it was declared at once it is initialized. -/
structure Local where
  name : String
  depth : Option Nat
  deriving DecidableEq, Repr, Inhabited

/-- The locals alive, innermost first. Depth 0 is the global scope. -/
structure LocalScope where
  locals : List Local
  depth : Nat
  limit : Nat
  deriving DecidableEq, Repr

namespace LocalScope

/-- The number of slots that an instruction can name. -/
def maxSlots : Nat := 256

/-- The global scope, with a limit on the locals alive at once. -/
def start (limit : Nat) : LocalScope := ⟨[], 0, min limit maxSlots⟩

instance : Inhabited LocalScope := ⟨start maxSlots⟩

/-- Whether no scope is open. -/
def isGlobal (s : LocalScope) : Bool := s.depth == 0

/-- The number of locals alive. -/
def size (s : LocalScope) : Nat := s.locals.length

/-- Opens a scope. -/
def enter (s : LocalScope) : LocalScope := { s with depth := s.depth + 1 }

/-- Closes the innermost scope, with the locals that are not initialized at an outer depth. -/
def leave (s : LocalScope) : LocalScope :=
  let depth := s.depth - 1
  { s with depth, locals := s.locals.dropWhile fun l => !l.depth.any (· ≤ depth) }

/-- Whether a local belongs to the innermost scope. -/
def isInnermost (s : LocalScope) (l : Local) : Bool := l.depth.all (s.depth ≤ ·)

/-- Declares a local in the innermost scope, not yet initialized. -/
def declare (s : LocalScope) (name : String) : Except ScopeError LocalScope :=
  if (s.locals.takeWhile s.isInnermost).any (·.name == name) then .error .redeclared
  else if s.limit ≤ s.size then .error .tooManyLocals
  else .ok { s with locals := ⟨name, none⟩ :: s.locals }

/-- Marks the latest local as initialized in the innermost scope. -/
def complete (s : LocalScope) : LocalScope :=
  match s.locals with
  | [] => s
  | l :: outer => { s with locals := { l with depth := some s.depth } :: outer }

/-- The slot of the innermost local with a name, among locals given innermost first. -/
def slotOf (name : String) : List Local → Except ScopeError (Option Nat)
  | [] => .ok none
  | l :: outer =>
    if l.name = name then
      if l.depth.isSome then .ok (some outer.length) else .error .readInOwnInitializer
    else slotOf name outer

/-- The slot a name stands for, or none if it is the name of a global. -/
def resolve (s : LocalScope) (name : String) : Except ScopeError (Option Nat) :=
  slotOf name s.locals

end LocalScope

end Lox
