import Lox.Compilation.Translation
import Mathlib.Algebra.Ring.Nat

/-!
# Stacks of scopes

What local scopes are for: a stack of scopes, each a list of names. The locals of all scopes share
one stack of values, so that a name stands for the number of names declared before it that are still
alive. Between the two halves of a declaration its name is *pending*: it cannot be used yet.

A `LocalScope` serves the same requests with a single list of locals and their depths. It counts on
its host to keep to an order of requests, which is that of declarations and blocks in a source:
`ScopeStack.Allows`.

## Main definitions

* `ScopeRequest`, `ScopeReply`: what is asked of scopes, and the answers.
* `LocalScope.serve`: the answers of a list of locals.
* `ScopeStack.serve`: the answers of a stack of scopes.
* `ScopeStack.AllowsAll`: requests in an order that the host may make them in.
* `ScopeRequest.Balanced`: requests that close every scope they open, and no other.
-/

namespace Lox

/-! ### Requests -/

/-- What is asked of scopes. -/
inductive ScopeRequest where
  | enter
  | leave
  | declare (name : String)
  | complete
  | resolve (name : String)
  deriving DecidableEq, Repr

/-- What scopes answer. -/
inductive ScopeReply where
  | done
  /-- Why a name cannot be declared or read. -/
  | refused (problem : ScopeError)
  /-- How many locals went with a scope. -/
  | dropped (count : Nat)
  /-- The slot that a name stands for, if it is that of a local. -/
  | slot (slot : Option Nat)
  deriving DecidableEq, Repr

/-- Serves requests one after the other, each in the state that the one before has left. -/
def serveScopes {σ : Type} (serve : σ → ScopeRequest → ScopeReply × σ) (s : σ) :
    List ScopeRequest → List ScopeReply × σ
  | [] => ([], s)
  | r :: rs =>
    let (reply, s) := serve s r
    let (replies, s) := serveScopes serve s rs
    (reply :: replies, s)

/-- What a list of locals answers. A slot that does not fit into a byte is no answer. -/
def LocalScope.serve (s : LocalScope) : ScopeRequest → ScopeReply × LocalScope
  | .enter => (.done, s.enter)
  | .leave => (.dropped (s.size - s.leave.size), s.leave)
  | .declare name =>
    match s.declare name with
    | .ok s' => (.done, s')
    | .error problem => (.refused problem, s)
  | .complete => (.done, s.complete)
  | .resolve name =>
    match s.resolve name with
    | .ok slot => (.slot (slot.filter (· < 256)), s)
    | .error problem => (.refused problem, s)

/-! ### Stacks -/

/-- The names of the locals in each open scope, a name that is pending, and how many locals may be
alive. -/
structure ScopeStack where
  scopes : Scopes
  pending : Option String
  limit : Nat
  deriving DecidableEq, Repr

namespace ScopeStack

/-- No scope is open. -/
def start (maxLocals : Nat) : ScopeStack := ⟨[], none, min maxLocals 256⟩

/-- The number of names in scopes. -/
def count (scopes : Scopes) : Nat := (scopes.map List.length).sum

/-- The place of the latest declaration of a name in the innermost scope that has it, counted from
the first local of the outermost scope. -/
def position? (name : String) : Scopes → Option Nat
  | [] => none
  | scope :: outer =>
    if name ∈ scope then some (count outer + (scope.length - 1 - scope.idxOf name))
    else position? name outer

/-- What a stack of scopes answers. -/
def serve (s : ScopeStack) : ScopeRequest → ScopeReply × ScopeStack
  | .enter => (.done, { s with scopes := [] :: s.scopes })
  | .leave => (.dropped (s.scopes.headD []).length, { s with scopes := s.scopes.tail })
  | .declare name =>
    if name ∈ s.scopes.headD [] then (.refused .redeclared, s)
    else if count s.scopes = s.limit then (.refused .tooManyLocals, s)
    else (.done, { s with pending := some name })
  | .complete =>
    (.done, { s with scopes := s.pending.elim s.scopes s.scopes.declare, pending := none })
  | .resolve name =>
    if s.pending = some name then (.refused .readInOwnInitializer, s)
    else (.slot (position? name s.scopes), s)

/-- A request may be made. While a name is pending its declaration has to be completed first, though
names may be looked up; locals are declared in scopes only, and only open scopes are closed. -/
def Allows (s : ScopeStack) : ScopeRequest → Prop
  | .enter => s.pending = none
  | .leave | .declare _ => s.pending = none ∧ s.scopes ≠ []
  | .complete => s.pending ≠ none
  | .resolve _ => True

instance (s : ScopeStack) : (r : ScopeRequest) → Decidable (s.Allows r)
  | .enter => inferInstanceAs (Decidable (s.pending = none))
  | .leave | .declare _ => inferInstanceAs (Decidable (s.pending = none ∧ s.scopes ≠ []))
  | .complete => inferInstanceAs (Decidable (s.pending ≠ none))
  | .resolve _ => inferInstanceAs (Decidable True)

/-- Requests may be made one after the other. -/
def AllowsAll (s : ScopeStack) : List ScopeRequest → Prop
  | [] => True
  | r :: rs => s.Allows r ∧ (s.serve r).2.AllowsAll rs

instance decidableAllowsAll (s : ScopeStack) : (rs : List ScopeRequest) → Decidable (s.AllowsAll rs)
  | [] => inferInstanceAs (Decidable True)
  | r :: rs =>
    have := decidableAllowsAll (s.serve r).2 rs
    inferInstanceAs (Decidable (s.Allows r ∧ (s.serve r).2.AllowsAll rs))

end ScopeStack

/-- The requests between the opening of a scope and its closing: they close every scope that they
open, and no other. -/
inductive ScopeRequest.Balanced : List ScopeRequest → Prop where
  | nil : Balanced []
  | cons {r : ScopeRequest} {rs : List ScopeRequest} (enter : r ≠ .enter) (leave : r ≠ .leave)
      (rest : Balanced rs) : Balanced (r :: rs)
  | scope {rs rs' : List ScopeRequest} (inside : Balanced rs) (rest : Balanced rs') :
      Balanced (.enter :: (rs ++ .leave :: rs'))

end Lox
