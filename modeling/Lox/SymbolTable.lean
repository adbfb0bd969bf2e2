import Lox.Symbol

/-!
# Tables keyed by symbols

An open-addressed hash table. A key lives in the first slot at or after its home slot, wrapping
round at the end, that is not taken by another key; its home slot is its hash modulo the capacity.
Deleting leaves a tombstone, so that the keys placed beyond the deleted one are still found.
Tombstones count towards the load and are dropped when the table grows.

Listing a table goes through its slots in order, so where each key lives is visible.

## Main definitions

* `SymbolTable`: the slots with the number of slots in use and of entries.
* `SymbolTable.insert`, `SymbolTable.erase`, `SymbolTable.replace`: the updates. The first two say
  whether the key was absent, or present.
* `SymbolTable.find?`, `SymbolTable.entries`: the views.
* `SymbolTable.merge`: copies the entries of another table.
-/

namespace Lox

/-- What a slot of a table holds. -/
inductive Slot (α : Type) where
  | vacant
  | tombstone
  | entry (key : Symbol) (value : α)
  deriving DecidableEq, Repr

instance {α : Type} : Inhabited (Slot α) := ⟨.vacant⟩

/-- The key and value of a slot that holds an entry. -/
def Slot.entry? {α : Type} : Slot α → Option (Symbol × α)
  | .entry key value => some (key, value)
  | _ => none

/-- A hash table from symbols to values. `used` counts entries and tombstones, `size` entries. -/
structure SymbolTable (α : Type) where
  slots : Array (Slot α)
  used : Nat
  size : Nat
  deriving DecidableEq, Repr

namespace SymbolTable

variable {α : Type}

/-- A table without slots. -/
def empty : SymbolTable α := ⟨#[], 0, 0⟩

instance : Inhabited (SymbolTable α) := ⟨empty⟩

/-- The number of slots. -/
def capacity (t : SymbolTable α) : Nat := t.slots.size

/-- Whether the table has no entry. -/
def isEmpty (t : SymbolTable α) : Bool := t.size == 0

/-! ### Probing -/

/-- The slot a key is looked for first. -/
def home (slots : Array (Slot α)) (key : Symbol) : Nat := key.hash.toNat % slots.size

/-- Walks over `steps` slots from `index` on, for the slot that holds the key. At a vacant slot the
key is absent, and the answer is the slot to put it into: the first tombstone passed, or else the
vacant slot. -/
def probe (slots : Array (Slot α)) (key : Symbol) :
    (steps : Nat) → (index : Nat) → (grave : Option Nat) → Nat
  | 0, index, grave => grave.getD index
  | steps + 1, index, grave =>
    let next := (index + 1) % slots.size
    match slots[index]? with
    | none | some .vacant => grave.getD index
    | some .tombstone => probe slots key steps next (grave.or (some index))
    | some (.entry other _) =>
      if other = key then index else probe slots key steps next grave

/-- The slot that holds a key, or the slot to put it into. -/
def locate (slots : Array (Slot α)) (key : Symbol) : Nat :=
  probe slots key slots.size (home slots key) none

/-! ### Views -/

/-- The value of a key. -/
def find? (t : SymbolTable α) (key : Symbol) : Option α :=
  match t.slots.getD (locate t.slots key) .vacant with
  | .entry _ value => some value
  | _ => none

/-- Whether a key has a value. -/
def contains (t : SymbolTable α) (key : Symbol) : Bool := (t.find? key).isSome

/-- The keys and values in the order of their slots. -/
def entries (t : SymbolTable α) : List (Symbol × α) := t.slots.toList.filterMap Slot.entry?

/-! ### Updates -/

/-- The least capacity of a table with slots. -/
def minCapacity : Nat := 8

/-- The slots with one more entry, placed without regard to the load. -/
def place (slots : Array (Slot α)) (entry : Symbol × α) : Array (Slot α) :=
  slots.setIfInBounds (locate slots entry.1) (.entry entry.1 entry.2)

/-- The same entries in twice the slots, without tombstones. -/
def grow (t : SymbolTable α) : SymbolTable α :=
  let capacity := if t.capacity < minCapacity then minCapacity else 2 * t.capacity
  let entries := t.entries
  ⟨entries.foldl place (Array.replicate capacity .vacant), entries.length, t.size⟩

/-- Whether one more slot in use would load the table to more than three quarters. -/
def isFull (t : SymbolTable α) : Bool := t.capacity * 3 < (t.used + 1) * 4

/-- Gives a key a value, and says whether the key had none before. -/
def insert (t : SymbolTable α) (key : Symbol) (value : α) : Bool × SymbolTable α :=
  let t := if t.isFull then t.grow else t
  let index := locate t.slots key
  match t.slots.getD index .vacant with
  | .vacant =>
    (true, ⟨t.slots.setIfInBounds index (.entry key value), t.used + 1, t.size + 1⟩)
  | .tombstone => (true, ⟨t.slots.setIfInBounds index (.entry key value), t.used, t.size + 1⟩)
  | .entry _ _ => (false, ⟨t.slots.setIfInBounds index (.entry key value), t.used, t.size⟩)

/-- Takes the value of a key away, and says whether it had one. The slot stays in use. -/
def erase (t : SymbolTable α) (key : Symbol) : Bool × SymbolTable α :=
  let index := locate t.slots key
  match t.slots.getD index .vacant with
  | .entry _ _ => (true, ⟨t.slots.setIfInBounds index .tombstone, t.used, t.size - 1⟩)
  | _ => (false, t)

/-- Overwrites the value of a key that has one, and answers the value it had. -/
def replace (t : SymbolTable α) (key : Symbol) (value : α) : Option α × SymbolTable α :=
  let index := locate t.slots key
  match t.slots.getD index .vacant with
  | .entry _ old => (some old, { t with slots := t.slots.setIfInBounds index (.entry key value) })
  | _ => (none, t)

/-- Gives each key of `other` the value it has there. -/
def merge (t other : SymbolTable α) : SymbolTable α :=
  other.entries.foldl (fun t entry => (t.insert entry.1 entry.2).2) t

end SymbolTable

end Lox
