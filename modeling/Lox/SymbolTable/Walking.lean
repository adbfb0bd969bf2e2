import Lox.SymbolTable

/-!
# Operations and their walks

An operation on a table finds its way by walks: through the slots, to the one that holds a key or to
the one to put it into. Here the operations are told with their walks left open. What is told of an
operation is which walks it starts and what it does with the slots that they come to, so that walks
can be made in any way one likes, and be recorded.

These are the operations without the safeguards of `SymbolTable`: what a walk comes to must lie inside
the slots. Lookups in a table without entries walk nowhere, and such a table may have no slots at all.

## Main definitions

* `Search`: a walk that is started.
* `Walking`: a computation on tables that starts walks. `Walking.run` makes them.
* `Walking.find?`, `Walking.insert`, `Walking.erase`, `Walking.replace`, `Walking.merge`: the
  operations.
-/

namespace Lox

namespace SymbolTable

/-- A walk for a key, with the slots as they are when it is started. -/
structure Search (α : Type) where
  slots : Array (Slot α)
  key : Symbol
  deriving DecidableEq

/-- A computation on tables that starts walks and may fail. -/
inductive Walking (α β : Type) where
  | pure (result : β)
  | fail
  /-- Starts a walk, and goes on at the slot that it comes to. -/
  | walk (s : Search α) (next : Nat → Walking α β)

namespace Walking

variable {α β γ : Type}

/-- One computation after the other. -/
def bind (p : Walking α β) (f : β → Walking α γ) : Walking α γ :=
  match p with
  | .pure result => f result
  | .fail => .fail
  | .walk s next => .walk s fun index => (next index).bind f

instance : Monad (Walking α) where
  pure := .pure
  bind := bind

/-- Makes the walks. -/
def run {M : Type → Type} [Monad M] [MonadExceptOf Unit M]
    (locate : Array (Slot α) → Symbol → M Nat) : Walking α β → M β
  | .pure result => Pure.pure result
  | .fail => throwThe Unit ()
  | .walk s next => locate s.slots s.key >>= fun index => (next index).run locate

/-- The walks that are started when each comes to a slot. -/
def walks (locate : Array (Slot α) → Symbol → Nat) : Walking α β → List (Search α)
  | .pure _ | .fail => []
  | .walk s next => s :: (next (locate s.slots s.key)).walks locate

/-! ### The operations -/

/-- Walks for a key. -/
def locate (slots : Array (Slot α)) (key : Symbol) : Walking α Nat := .walk ⟨slots, key⟩ .pure

/-- The slot of a key in a table that has entries, with what it holds. -/
def visit (t : SymbolTable α) (key : Symbol) : Walking α (Nat × Slot α) := do
  let index ← locate t.slots key
  match t.slots[index]? with
  | some slot => pure (index, slot)
  | none => fail

/-- The value of a key. -/
def find? (t : SymbolTable α) (key : Symbol) : Walking α (Option α) :=
  if t.size = 0 then pure none
  else do
    match (← visit t key).2 with
    | .entry _ value => pure (some value)
    | _ => pure none

/-- Whether a key has a value. -/
def contains (t : SymbolTable α) (key : Symbol) : Walking α Bool := do
  pure (← find? t key).isSome

/-- Takes the value of a key away, and says whether it had one. -/
def erase (t : SymbolTable α) (key : Symbol) : Walking α (Bool × SymbolTable α) :=
  if t.size = 0 then pure (false, t)
  else do
    match ← visit t key with
    | (index, .entry _ _) =>
      pure (true, ⟨t.slots.setIfInBounds index .tombstone, t.used, t.size - 1⟩)
    | _ => pure (false, t)

/-- Overwrites the value of a key that has one, and answers the value it had. -/
def replace (t : SymbolTable α) (key : Symbol) (value : α) :
    Walking α (Option α × SymbolTable α) :=
  if t.size = 0 then pure (none, t)
  else do
    match ← visit t key with
    | (index, .entry _ old) =>
      pure (some old, { t with slots := t.slots.setIfInBounds index (.entry key value) })
    | _ => pure (none, t)

/-- The slots with one more entry. -/
def place (slots : Array (Slot α)) (entry : Symbol × α) : Walking α (Array (Slot α)) := do
  let index ← locate slots entry.1
  if index < slots.size then pure (slots.setIfInBounds index (.entry entry.1 entry.2)) else fail

/-- The same entries in twice the slots. -/
def grow (t : SymbolTable α) : Walking α (SymbolTable α) := do
  let capacity := if t.capacity < minCapacity then minCapacity else 2 * t.capacity
  let slots ← t.entries.foldlM place (Array.replicate capacity .vacant)
  pure ⟨slots, t.entries.length, t.size⟩

/-- The table with room for one more entry. -/
def makeRoom (t : SymbolTable α) : Walking α (SymbolTable α) :=
  if t.isFull then grow t else pure t

/-- Gives a key a value, and says whether the key had none before. -/
def insert (t : SymbolTable α) (key : Symbol) (value : α) : Walking α (Bool × SymbolTable α) := do
  let t ← makeRoom t
  match ← visit t key with
  | (index, .vacant) =>
    pure (true, ⟨t.slots.setIfInBounds index (.entry key value), t.used + 1, t.size + 1⟩)
  | (index, .tombstone) =>
    pure (true, ⟨t.slots.setIfInBounds index (.entry key value), t.used, t.size + 1⟩)
  | (index, .entry _ _) =>
    pure (false, ⟨t.slots.setIfInBounds index (.entry key value), t.used, t.size⟩)

/-- Gives each key of `other` the value it has there. -/
def merge (t other : SymbolTable α) : Walking α (SymbolTable α) :=
  other.entries.foldlM (fun t entry => do pure (← insert t entry.1 entry.2).2) t

end Walking

end SymbolTable

end Lox
