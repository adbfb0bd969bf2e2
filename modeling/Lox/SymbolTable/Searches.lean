import Lox.SymbolTable.Unguarded
import Lox.SymbolTable.Walking

/-!
# Recording walks

The walks of an operation are made without safeguards, and each is put down before it is made: for
which key, and through which slots. An operation that fails has put down the walks it has started.

A walk has no bound of its own. That it ends, and how soon, depends on the slots it is started in.

## Main definitions

* `Search.Ends`: what makes a walk end in time.
* `Recording`: a computation that puts down the walks it starts, by `Recording.locate`.
* `within`: walks that are on record already.
-/

namespace Lox

namespace SymbolTable

variable {α : Type}

/-- The walk goes through slots one of which is vacant, and it is over at one of them after no more
rounds than there are slots. It starts at the slot that masking the hash leads to. -/
structure Search.Ends (s : Search α) : Prop where
  size_pos : 0 < s.slots.size
  vacant : ∃ i : Nat, s.slots[i]? = some .vacant
  ends : ∃ rounds ≤ s.slots.size, ∃ found < s.slots.size,
    Unguarded.EndsAfter s.slots s.key rounds (s.key.hash.toNat &&& (s.slots.size - 1), none) found

/-- A computation on tables that puts down the walks it starts and may fail. -/
abbrev Recording (α : Type) : Type → Type := OptionT (StateM (List (Search α)))

noncomputable section

/-- Makes a walk, which is put down before anything else. -/
def Recording.locate (slots : Array (Slot α)) (key : Symbol) : Recording α Nat :=
  OptionT.mk fun searches => (Unguarded.locate slots key, searches ++ [⟨slots, key⟩])

open Classical in
/-- Makes a walk if it is on record. -/
def within (record : List (Search α)) (slots : Array (Slot α)) (key : Symbol) : Option Nat :=
  if ⟨slots, key⟩ ∈ record then Unguarded.locate slots key else none

end

end SymbolTable

end Lox
