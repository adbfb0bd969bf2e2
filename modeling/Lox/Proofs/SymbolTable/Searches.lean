import Lox.Proofs.SymbolTable.Refinement

/-!
# Every search ends

The representation of a table that starts empty and changes by requests only: what its counters count,
how full it can be, and where its entries stand. That is what makes every walk end that serving a
request starts, after as many rounds as there are slots or fewer.

## Main definitions

* `Intact`: the representation of a table.
* `serveAllRecording`: serving requests, with the walks put down.

## Main results

* `Valid.intact`: the representation of a valid table.
* `serveAll_searches`: the tables and the walks of any number of requests.
-/

namespace Lox

/-- Whether a slot holds a tombstone. -/
def Slot.isTombstone {α : Type} : Slot α → Bool
  | .tombstone => true
  | _ => false

namespace SymbolTable

variable {ι α : Type} {t other : SymbolTable α} {slots : Array (Slot α)} {key : Symbol} {value : α}

/-! ### The representation -/

/-- The representation of a table is intact. The home of a key is found by masking its hash. -/
structure Intact (t : SymbolTable α) : Prop where
  /-- There are no slots, or a power of two of them that is 8 or more. -/
  capacity : t.capacity = 0 ∨ 8 ≤ t.capacity ∧ ∃ k, t.capacity = 2 ^ k
  size : t.size = t.slots.countP Slot.isEntry
  used : t.used = t.slots.countP Slot.isEntry + t.slots.countP Slot.isTombstone
  load : 4 * t.used ≤ 3 * t.capacity
  /-- No key has two entries. -/
  once : ∀ (i j : Nat) (key : Symbol) (v w : α), t.slots[i]? = some (.entry key v) →
    t.slots[j]? = some (.entry key w) → i = j
  /-- From the home of a key to its entry no slot is vacant. -/
  reached : ∀ (i : Nat) (key : Symbol) (v : α), t.slots[i]? = some (.entry key v) →
    ∃ n < t.capacity, ((key.hash.toNat &&& (t.capacity - 1)) + n) &&& (t.capacity - 1) = i ∧
      ∀ m ≤ n, t.slots[((key.hash.toNat &&& (t.capacity - 1)) + m) &&& (t.capacity - 1)]? ≠
        some .vacant

/-- What is in use is an entry or a tombstone. -/
theorem countP_inUse (slots : Array (Slot α)) :
    slots.countP Slot.inUse = slots.countP Slot.isEntry + slots.countP Slot.isTombstone := by
  rw [← Array.countP_toList, ← Array.countP_toList, ← Array.countP_toList]
  induction slots.toList with
  | nil => rfl
  | cons s rest ih =>
    rw [List.countP_cons, List.countP_cons, List.countP_cons, ih]
    cases s <;> simp [Slot.inUse, Slot.isEntry, Slot.entry?, Slot.isTombstone] <;> omega

/-- With a power of two of slots, masking leads along the walk of a key. -/
theorem mask_eq_walk (hsize : slots.size.isPowerOfTwo) (key : Symbol) (n : Nat) :
    ((key.hash.toNat &&& (slots.size - 1)) + n) &&& (slots.size - 1) = walk slots key n := by
  rw [mask_eq_mod hsize, mask_eq_mod hsize, walk, home]

theorem Valid.intact (h : Valid t) : Intact t where
  capacity := h.capacity
  size := h.size
  used := h.used.trans (countP_inUse t.slots)
  load := h.load
  once _ _ _ _ _ hi hj := h.chained.unique hi hj
  reached i key v hentry := by
    obtain ⟨hi, -⟩ := Array.getElem?_eq_some_iff.mp hentry
    obtain ⟨n, hn, rfl⟩ := exists_walk_eq key hi
    have hwalk : ∀ m, ((key.hash.toNat &&& (t.capacity - 1)) + m) &&& (t.capacity - 1) =
        walk t.slots key m := mask_eq_walk (h.isPowerOfTwo (Nat.zero_lt_of_lt hi)) key
    refine ⟨n, hn, hwalk n, fun m hm => ?_⟩
    rw [hwalk]
    rcases Nat.eq_or_lt_of_le hm with rfl | hlt
    · rw [hentry]
      exact nofun
    · exact h.chained.reachable hn hentry m hlt

/-! ### Requests one after the other -/

variable [DecidableEq ι]

/-- Serves requests one after the other, with the walks put down. -/
noncomputable def serveAllRecording (tables : ι → SymbolTable α) (requests : List (Request ι α)) :
    Recording α (List (Reply α) × (ι → SymbolTable α)) :=
  (serveAllWalking tables requests).run Recording.locate

/-- **Tables are kept intact, and every search ends.** However many tables there are, all empty at
first, and whatever is asked of them: the representation of each table is intact in the end, and each
walk that was started on the way went through slots one of which was vacant and was over, inside the
slots, after as many rounds as there were slots or fewer. No walk is missing from the record: the same
comes of the requests if walks that are not on it fail. -/
theorem serveAll_searches (requests : List (Request ι α)) :
    let served := serveAll Request.onTables (fun _ => (empty : SymbolTable α)) requests
    (∀ i, Intact (served.2 i)) ∧
      ∃ searches, (serveAllRecording (fun _ => empty) requests).run.run [] =
        (some served, searches) ∧ (∀ s ∈ searches, s.Ends) ∧
        (serveAllWalking (fun _ => empty) requests).run (within searches) = some served := by
  obtain ⟨hyields, -, hall⟩ := Agrees.serveAll (fun _ => agrees_empty) requests
  have hrun := hyields.recorded []
  have hrecord : ((serveAllRecording (fun _ => empty) requests).run.run []).2 ⊆
      (serveAllWalking (fun _ => empty) requests).walks locate := by
    rw [serveAllRecording, hrun, List.nil_append]
    exact List.Subset.refl _
  exact ⟨fun i => (hall i).valid.intact, _, hrun, hyields.ends,
    (Walking.run_within _ hrecord).trans (congrArg Prod.fst hrun)⟩

/-- A key is inserted, erased and looked for among eight slots. The walk for a key of the same home
passes the tombstone. -/
theorem serveAll_searches_of_tombstone :
    let a : Symbol := ⟨0, 3⟩
    let b : Symbol := ⟨1, 11⟩
    let requests : List (Request Unit Nat) :=
      [.insert () a 1, .insert () b 2, .erase () a, .find () b]
    ∃ searches, (serveAllRecording (fun _ => empty) requests).run.run [] =
        (some (serveAll Request.onTables (fun _ => empty) requests), searches) ∧
      (searches.map fun s => (s.key, s.slots[3]?, s.slots.size)) =
        [(a, some .vacant, 8), (b, some (.entry a 1), 8), (a, some (.entry a 1), 8),
          (b, some .tombstone, 8)] ∧
      ∀ s ∈ searches, s.Ends := by
  intro a b requests
  obtain ⟨-, searches, hrun, hends, -⟩ := serveAll_searches requests
  have hwalks : searches = (serveAllWalking (fun _ => empty) requests).walks locate :=
    congrArg Prod.snd (hrun.symm.trans ((Agrees.serveAll (fun _ => agrees_empty) requests).1.recorded []))
  refine ⟨searches, hrun, ?_, hends⟩
  rw [hwalks]
  decide +kernel

end SymbolTable

end Lox
