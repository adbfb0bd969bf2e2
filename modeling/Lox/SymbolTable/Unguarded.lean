import Lox.SymbolTable
import Mathlib.Data.PFun

/-!
# Walks without safeguards

The walks of `SymbolTable` end whatever the slots are: a walk is cut off after as many steps as there
are slots, and what lies outside the slots counts as vacant. Here are walks without these safeguards.
A walk goes on until it has come to the key or to a vacant slot. It goes round by masking, which comes
to a remainder only if the number of slots is a power of two. Reading outside the slots is a failure.

So a walk comes to something here only if it ends, and inside the slots.

## Main definitions

* `Unguarded.round`, `Unguarded.seek`: the walk.
* `Unguarded.EndsAfter`: the number of rounds that a walk takes.
* `Unguarded.locate`: what a walk for a key comes to, if anything.
-/

namespace Lox

namespace SymbolTable

namespace Unguarded

noncomputable section

variable {α : Type}

/-- One round of a walk, at an index and with the first tombstone passed so far: the walk is over, or
goes on at the next slot. Outside the slots there is no next round. -/
def round (slots : Array (Slot α)) (key : Symbol) :
    Nat × Option Nat →. Nat ⊕ Nat × Option Nat := fun (index, grave) =>
  let next := (index + 1) &&& (slots.size - 1)
  Part.ofOption <| slots[index]?.map fun
    | .vacant => .inl (grave.getD index)
    | .tombstone => .inr (next, grave.or (some index))
    | .entry other _ => if other = key then .inl index else .inr (next, grave)

/-- A walk that is over after a number of rounds, at a slot. In each round one slot is looked at. -/
inductive EndsAfter (slots : Array (Slot α)) (key : Symbol) :
    (rounds : Nat) → Nat × Option Nat → (found : Nat) → Prop where
  | last {s : Nat × Option Nat} {found : Nat} (stop : .inl found ∈ round slots key s) :
      EndsAfter slots key 1 s found
  | next {rounds found : Nat} {s s' : Nat × Option Nat} (step : .inr s' ∈ round slots key s)
      (rest : EndsAfter slots key rounds s' found) : EndsAfter slots key (rounds + 1) s found

/-- What a computation comes to, if it ends. -/
def outcome (p : Part Nat) : Option Nat := @Part.toOption Nat p (Classical.propDecidable p.Dom)

/-- The walk from an index on: rounds until one of them is the last. -/
def seek (slots : Array (Slot α)) (key : Symbol) (index : Nat) (grave : Option Nat) : Option Nat :=
  outcome ((round slots key).fix (index, grave))

/-- The slot that holds a key, or the slot to put it into. There is none where there are no slots. -/
def locate (slots : Array (Slot α)) (key : Symbol) : Option Nat :=
  if slots.size = 0 then none else seek slots key (key.hash.toNat &&& (slots.size - 1)) none

end

end Unguarded

end SymbolTable

end Lox
