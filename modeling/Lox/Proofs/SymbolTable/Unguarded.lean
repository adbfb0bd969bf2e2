import Lox.SymbolTable.Searches
import Lox.Proofs.SymbolTable.Contents

/-!
# Safeguards are never needed

In a valid table every walk comes to a vacant slot before it has gone round, since at most three
quarters of the slots are in use. So the operations that nothing bounds have a result, it is the
result of the bounded ones, and all their walks end in time.

## Main definitions

* `Walking.Yields`: a computation has a result, and each walk that it starts ends in time.

## Main results

* `exists_endsAfter`: a walk that a vacant slot lies ahead of ends, where the bounded walk ends.
* `Walking.Yields.run`, `Walking.Yields.recorded`: the result without safeguards, with the walks.
* `Walking.run_within`: all walks are on record.
* `Valid.yields_find?`, `Valid.yields_erase`, `Valid.yields_replace`, `Valid.yields_insert`,
  `Valid.yields_merge`: the operations on valid tables.
-/

namespace Lox

namespace SymbolTable

variable {α β γ : Type} {slots : Array (Slot α)} {t : SymbolTable α} {key : Symbol} {value : α}

/-! ### Walks -/

/-- With a power of two as the number of slots, masking comes to a remainder. -/
theorem mask_eq_mod (hsize : slots.size.isPowerOfTwo) (n : Nat) :
    n &&& (slots.size - 1) = n % slots.size := by
  obtain ⟨k, hk⟩ := hsize
  rw [hk, Nat.and_two_pow_sub_one_eq_mod]

/-- A walk that is over after some rounds ends. -/
theorem seek_of_endsAfter {rounds index found : Nat} {grave : Option Nat}
    (h : Unguarded.EndsAfter slots key rounds (index, grave) found) :
    Unguarded.seek slots key index grave = some found := by
  generalize hs : (index, grave) = s at h
  induction h generalizing index grave with
  | last hstop =>
    subst hs
    exact (@Part.toOption_eq_some_iff _ _ (Classical.propDecidable _) _).mpr (PFun.fix_stop hstop)
  | next hstep _ ih =>
    subst hs
    exact (congrArg Unguarded.outcome (PFun.fix_fwd_eq hstep)).trans (ih rfl)

/-- A walk with a vacant slot ahead ends where the bounded walk does: it goes no further than to that
slot, which is less than once around. -/
theorem exists_endsAfter {n k : Nat} (hsize : slots.size.isPowerOfTwo) (grave : Option Nat)
    (hn : n ≤ k) (hk : k < slots.size) (hvacant : slots[walk slots key k]? = some .vacant) :
    ∃ rounds ≤ k - n + 1, Unguarded.EndsAfter slots key rounds (walk slots key n, grave)
      (probe slots key (slots.size - n) (walk slots key n) grave) := by
  obtain ⟨d, rfl⟩ := Nat.exists_eq_add_of_le hn
  induction d generalizing n grave with
  | zero =>
    rw [Nat.add_zero] at hvacant
    rw [show slots.size - n = slots.size - n - 1 + 1 by omega, probe, hvacant]
    exact ⟨1, by omega, .last (by simp [Unguarded.round, hvacant])⟩
  | succ d ih =>
    have hnext := fun grave => ih (n := n + 1) grave (by omega) (by omega)
      (by rwa [show n + 1 + d = n + (d + 1) by omega])
    obtain ⟨slot, hslot⟩ : ∃ slot, slots[walk slots key n]? = some slot :=
      ⟨_, Array.getElem?_eq_getElem (walk_lt (by omega) key n)⟩
    have hround : ∀ grave, Unguarded.round slots key (walk slots key n, grave) = _ := fun grave => by
      rw [Unguarded.round, mask_eq_mod hsize, ← walk_succ, hslot, Option.map_some, Part.coe_some]
    rw [show slots.size - n = slots.size - (n + 1) + 1 by omega, probe, ← walk_succ, hslot]
    cases slot with
    | vacant => exact ⟨1, by omega, .last (by simp [hround])⟩
    | tombstone =>
      obtain ⟨rounds, hrounds, hends⟩ := hnext (grave.or (some (walk slots key n)))
      exact ⟨rounds + 1, by omega, .next (by simp [hround]) hends⟩
    | entry other v =>
      by_cases heq : other = key
      · simp only [if_pos heq]
        exact ⟨1, by omega, .last (by simp [hround, heq])⟩
      · simp only [if_neg heq]
        obtain ⟨rounds, hrounds, hends⟩ := hnext grave
        exact ⟨rounds + 1, by omega, .next (by simp [hround, heq]) hends⟩

/-- **Where some slot is vacant the walk ends,** after as many rounds as there are slots or fewer. -/
theorem exists_endsAfter_locate (hsize : slots.size.isPowerOfTwo)
    (hroom : ∃ i : Nat, slots[i]? = some .vacant) (key : Symbol) :
    ∃ rounds ≤ slots.size, Unguarded.EndsAfter slots key rounds
      (key.hash.toNat &&& (slots.size - 1), none) (locate slots key) := by
  obtain ⟨i, hvacant⟩ := hroom
  obtain ⟨hi, -⟩ := Array.getElem?_eq_some_iff.mp hvacant
  obtain ⟨k, hk, rfl⟩ := exists_walk_eq key hi
  obtain ⟨rounds, hrounds, hends⟩ := exists_endsAfter hsize none (Nat.zero_le k) hk hvacant
  rw [walk_zero, home, ← mask_eq_mod hsize] at hends
  rw [locate, home, ← mask_eq_mod hsize]
  exact ⟨rounds, by omega, hends⟩

theorem unguarded_locate (hsize : slots.size.isPowerOfTwo)
    (hroom : ∃ i : Nat, slots[i]? = some .vacant) :
    Unguarded.locate slots key = some (locate slots key) := by
  obtain ⟨i, hvacant⟩ := hroom
  obtain ⟨hi, -⟩ := Array.getElem?_eq_some_iff.mp hvacant
  obtain ⟨rounds, -, hends⟩ := exists_endsAfter_locate hsize ⟨i, hvacant⟩ key
  rw [Unguarded.locate, if_neg (Nat.ne_of_gt (Nat.zero_lt_of_lt hi))]
  exact seek_of_endsAfter hends

/-- The walk ends inside the slots. -/
theorem Chained.getElem?_locate (h : Chained slots) (hroom : ∃ i : Nat, slots[i]? = some .vacant)
    (key : Symbol) : slots[locate slots key]? = some (slots.getD (locate slots key) .vacant) := by
  rw [Array.getD_eq_getD_getElem?]
  rcases h.locate_spec hroom key with ⟨v, hslot⟩ | ⟨-, hslot | hslot⟩ <;>
    rw [hslot, Option.getD_some]

theorem Valid.isPowerOfTwo (h : Valid t) (hpos : 0 < t.slots.size) : t.slots.size.isPowerOfTwo := by
  rcases h.capacity with hzero | ⟨-, hpower⟩
  · exact absurd hzero (Nat.ne_of_gt hpos)
  · exact hpower

/-! ### Walks that end in time -/

namespace Walking

/-- The computation has the result, and each walk that it starts ends in time, at the slot where the
bounded walk ends. -/
inductive Yields : Walking α β → β → Prop where
  | pure (result : β) : Yields (.pure result) result
  | walk {s : Search α} {next : Nat → Walking α β} {result : β} (ends : s.Ends)
      (found : Unguarded.locate s.slots s.key = some (SymbolTable.locate s.slots s.key))
      (rest : Yields (next (SymbolTable.locate s.slots s.key)) result) :
      Yields (.walk s next) result

variable {p : Walking α β} {f : β → Walking α γ} {b : β} {c : γ}

/-- One computation after the other. -/
theorem Yields.bind (h : Yields p b) (h' : Yields (f b) c) : Yields (p >>= f) c := by
  induction h with
  | pure => exact h'
  | walk ends found _ ih => exact .walk ends found (ih h')

/-- Without safeguards the result is the same. -/
theorem Yields.run (h : Yields p b) : p.run Unguarded.locate = some b := by
  induction h with
  | pure => rfl
  | walk _ found _ ih =>
    rw [Walking.run, found]
    exact ih

/-- What is put down of a walk, and of what comes behind it. -/
theorem recorded_walk (s : Search α) (next : Nat → Walking α β) (before : List (Search α)) :
    ((Walking.walk s next).run Recording.locate).run.run before =
      match Unguarded.locate s.slots s.key with
      | some index => ((next index).run Recording.locate).run.run (before ++ [s])
      | none => (none, before ++ [s]) := by
  have hstart : (Recording.locate s.slots s.key).run.run before =
      (Unguarded.locate s.slots s.key, before ++ [s]) := rfl
  rw [Walking.run, OptionT.run_bind, Option.elimM, StateT.run_bind, hstart]
  cases Unguarded.locate s.slots s.key <;> rfl

/-- The walks that are put down, behind those put down before. -/
theorem Yields.recorded (h : Yields p b) (before : List (Search α)) :
    (p.run Recording.locate).run.run before =
      (some b, before ++ p.walks SymbolTable.locate) := by
  induction h generalizing before with
  | pure =>
    rw [walks, List.append_nil]
    rfl
  | walk _ found _ ih =>
    rw [recorded_walk, found]
    exact (ih _).trans (by rw [walks, List.append_assoc, List.singleton_append])

theorem Yields.ends (h : Yields p b) : ∀ s ∈ p.walks SymbolTable.locate, s.Ends := by
  induction h with
  | pure => exact fun s hs => absurd hs List.not_mem_nil
  | walk ends _ _ ih => exact fun s hs => (List.mem_cons.mp hs).elim (fun heq => heq ▸ ends) (ih s)

/-- What is on record stays on record. -/
theorem prefix_recorded (p : Walking α β) (before : List (Search α)) :
    before <+: ((p.run Recording.locate).run.run before).2 := by
  induction p generalizing before with
  | pure | fail => exact List.prefix_refl before
  | walk s next ih =>
    have hstart : before <+: before ++ [s] := List.prefix_append before [s]
    rw [recorded_walk]
    split
    · exact hstart.trans (ih _ _)
    · exact hstart

/-- **All walks are on record**: with the walks on record and no others the computation comes to the
same. -/
theorem run_within (p : Walking α β) {before record : List (Search α)}
    (h : ((p.run Recording.locate).run.run before).2 ⊆ record) :
    p.run (within record) = ((p.run Recording.locate).run.run before).1 := by
  induction p generalizing before with
  | pure | fail => rfl
  | walk s next ih =>
    rw [recorded_walk] at h ⊢
    rw [Walking.run]
    cases hlocate : Unguarded.locate s.slots s.key with
    | none =>
      have hwithin : within record s.slots s.key = none := by
        rw [within, hlocate, ite_self]
      rw [hwithin]
      rfl
    | some index =>
      rw [hlocate] at h
      have hs : s ∈ record :=
        h ((prefix_recorded (next index) (before ++ [s])).subset (List.mem_append_right _
          (List.mem_singleton_self s)))
      have hwithin : within record s.slots s.key = some index := by
        rw [within, if_pos hs, hlocate]
      rw [hwithin]
      exact ih index h

theorem yields_locate (h : Search.Ends ⟨slots, key⟩)
    (hlocate : Unguarded.locate slots key = some (SymbolTable.locate slots key)) :
    Yields (locate slots key) (SymbolTable.locate slots key) := .walk h hlocate (.pure _)

end Walking

open Walking (Yields)

/-- Where some slot is vacant a walk ends in time, at the slot where the bounded walk ends. -/
theorem Chained.yields_locate (h : Chained slots) (hsize : slots.size.isPowerOfTwo)
    (hroom : ∃ i : Nat, slots[i]? = some .vacant) (key : Symbol) :
    Yields (Walking.locate slots key) (locate slots key) := by
  obtain ⟨hfound, -⟩ := Array.getElem?_eq_some_iff.mp (h.getElem?_locate hroom key)
  obtain ⟨rounds, hrounds, hends⟩ := exists_endsAfter_locate hsize hroom key
  exact Walking.yields_locate
    ⟨Nat.zero_lt_of_lt hfound, hroom, rounds, hrounds, _, hfound, hends⟩
    (unguarded_locate hsize hroom)

/-- Visiting a key in a valid table with slots. -/
theorem Valid.yields_visit (h : Valid t) (hpos : 0 < t.slots.size) (key : Symbol) :
    Yields (Walking.visit t key)
      (locate t.slots key, t.slots.getD (locate t.slots key) .vacant) := by
  have hroom := h.exists_vacant_of_pos hpos
  refine (h.chained.yields_locate (h.isPowerOfTwo hpos) hroom key).bind ?_
  rw [h.chained.getElem?_locate hroom]
  exact .pure _

/-! ### Lookups and updates in place -/

/-- A table that counts an entry has slots. -/
theorem Valid.pos_of_size (h : Valid t) (hsize : t.size ≠ 0) : 0 < t.slots.size := by
  have hcount : t.slots.countP Slot.isEntry ≤ t.slots.size := Array.countP_le_size
  rw [← h.size] at hcount
  omega

/-- A table that counts no entry finds nothing. -/
theorem Valid.find?_of_size (h : Valid t) (hsize : t.size = 0) (key : Symbol) :
    t.find? key = none := by
  cases hfind : t.find? key with
  | none => rfl
  | some v =>
    have hmem := (mem_entries_iff t key v).mpr (h.find?_eq_some_iff.mp hfind)
    have hlength : t.entries.length = 0 := by rw [length_entries, ← h.size, hsize]
    rw [List.length_eq_zero_iff.mp hlength] at hmem
    exact absurd hmem List.not_mem_nil

/-- Unless a table counts no entries, a key is visited; if it counts none, the key has no value. -/
theorem Valid.yields_counting (h : Valid t) (key : Symbol) {absent result : β}
    {f : Nat × Slot α → Walking α β} (habsent : t.find? key = none → result = absent)
    (hvisited : Yields (f (locate t.slots key, t.slots.getD (locate t.slots key) .vacant)) result) :
    Yields (if t.size = 0 then pure absent else Walking.visit t key >>= f) result := by
  split
  · next hsize =>
    rw [habsent (h.find?_of_size hsize key)]
    exact .pure _
  · next hsize => exact (h.yields_visit (h.pos_of_size hsize) key).bind hvisited

theorem Valid.yields_find? (h : Valid t) (key : Symbol) :
    Yields (Walking.find? t key) (t.find? key) := by
  refine h.yields_counting key id ?_
  rw [SymbolTable.find?]
  cases t.slots.getD (locate t.slots key) .vacant <;> exact .pure _

theorem Valid.yields_contains (h : Valid t) (key : Symbol) :
    Yields (Walking.contains t key) (t.contains key) :=
  (h.yields_find? key).bind (.pure _)

theorem Valid.yields_erase (h : Valid t) (key : Symbol) :
    Yields (Walking.erase t key) (t.erase key) := by
  refine h.yields_counting key erase_of_find?_eq_none ?_
  rw [SymbolTable.erase]
  cases t.slots.getD (locate t.slots key) .vacant <;> exact .pure _

theorem Valid.yields_replace (h : Valid t) (key : Symbol) (value : α) :
    Yields (Walking.replace t key value) (t.replace key value) := by
  refine h.yields_counting key replace_of_find?_eq_none ?_
  rw [SymbolTable.replace]
  cases t.slots.getD (locate t.slots key) .vacant <;> exact .pure _

/-! ### Growing and insertion -/

/-- Placing an entry takes at most one slot more into use. -/
theorem Chained.countP_place_le (h : Chained slots) (hroom : ∃ i : Nat, slots[i]? = some .vacant)
    (e : Symbol × α) : (place slots e).countP Slot.inUse ≤ slots.countP Slot.inUse + 1 := by
  have hcount := countP_setIfInBounds Slot.inUse (.entry e.1 e.2) (h.getElem?_locate hroom e.1)
  rw [Slot.inUse_entry, if_pos rfl] at hcount
  rw [place]
  omega

/-- Where there is room for some entries, each can be placed after those before it. -/
theorem yields_places (entries : List (Symbol × α)) (h : Chained slots)
    (hsize : slots.size.isPowerOfTwo)
    (hroom : slots.countP Slot.inUse + entries.length < slots.size) :
    Yields (entries.foldlM Walking.place slots) (entries.foldl place slots) := by
  induction entries generalizing slots with
  | nil => exact .pure _
  | cons e entries ih =>
    -- An entry takes a vacant slot at most, so there is room left for those behind it.
    rw [List.length_cons] at hroom
    have hvacant : ∃ i : Nat, slots[i]? = some .vacant := exists_vacant (by omega)
    obtain ⟨hlt, -⟩ := Array.getElem?_eq_some_iff.mp (h.getElem?_locate hvacant e.1)
    have hplace : Yields (Walking.place slots e) (place slots e) := by
      refine (h.yields_locate hsize hvacant e.1).bind ?_
      rw [if_pos hlt]
      exact .pure _
    have hcount := h.countP_place_le hvacant e
    have hsame : (place slots e).size = slots.size := Array.size_setIfInBounds
    rw [List.foldlM_cons, List.foldl_cons]
    exact hplace.bind (ih (h.set_entry e.1 e.2 hvacant) (hsame ▸ hsize) (by omega))

/-- The slots of a grown table, vacant at first, have room for all entries. -/
theorem Valid.room_grown (h : Valid t) :
    (Array.replicate t.grownCapacity (.vacant : Slot α)).size.isPowerOfTwo ∧
      (Array.replicate t.grownCapacity (.vacant : Slot α)).countP Slot.inUse + t.entries.length <
        (Array.replicate t.grownCapacity (.vacant : Slot α)).size := by
  have huse : (Array.replicate t.grownCapacity (.vacant : Slot α)).countP Slot.inUse = 0 := by
    simp [Array.countP_replicate]
  have hload := h.load_grown
  rw [huse, Array.size_replicate]
  refine ⟨?_, by omega⟩
  rw [← h.slots_grow.2.1] at hload ⊢
  refine h.grow.isPowerOfTwo ?_
  show 0 < t.grow.capacity
  omega

theorem Valid.yields_grow (h : Valid t) : Yields (Walking.grow t) t.grow := by
  obtain ⟨hpower, hroom⟩ := h.room_grown
  exact (yields_places t.entries (chained_replicate _) hpower hroom).bind (.pure _)

theorem Valid.yields_insert (h : Valid t) (key : Symbol) (value : α) :
    Yields (Walking.insert t key value) (t.insert key value) := by
  obtain ⟨t', heq, hvalid, hroom, -⟩ := h.roomy
  have hmakeRoom : Yields (Walking.makeRoom t) t' := by
    rw [Walking.makeRoom, ← heq]
    split
    · exact h.yields_grow
    · exact .pure _
  obtain ⟨i, hi⟩ := hvalid.exists_vacant hroom
  have hpos : 0 < t'.slots.size := Nat.zero_lt_of_lt (Array.getElem?_eq_some_iff.mp hi).1
  refine hmakeRoom.bind ((hvalid.yields_visit hpos key).bind ?_)
  rw [SymbolTable.insert, heq]
  cases t'.slots.getD (locate t'.slots key) .vacant <;> exact .pure _

theorem Valid.yields_inserts (h : Valid t) (entries : List (Symbol × α)) :
    Yields (entries.foldlM (fun t e => do pure (← Walking.insert t e.1 e.2).2) t)
      (entries.foldl (fun t e => (t.insert e.1 e.2).2) t) := by
  induction entries generalizing t with
  | nil => exact .pure _
  | cons e entries ih =>
    rw [List.foldlM_cons, List.foldl_cons]
    refine Yields.bind ?_ (ih (h.insert e.1 e.2))
    exact (h.yields_insert e.1 e.2).bind (.pure _)

theorem Valid.yields_merge (h : Valid t) (other : SymbolTable α) :
    Yields (Walking.merge t other) (t.merge other) := h.yields_inserts other.entries

end SymbolTable

end Lox
