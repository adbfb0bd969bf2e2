import Lox.Proofs.SymbolTable.Probing

/-!
# What a table holds

A table is explained by what each key finds. `Valid` is the invariant of every table that starts
empty and changes by the updates only; under it the updates act on what keys find as those of a
finite map do.

## Main definitions

* `Holds`: a key stands with a value in some slot.
* `Valid`: the counters are right, at most three quarters of the slots are in use, and every entry
  can be reached from its home.

## Main results

* `Valid.find?_eq_some_iff`: a key finds the value it stands with.
* `valid_empty`, `Valid.insert`: the invariant is kept.
* `Valid.find?_insert`, `Valid.replace_of_find?_eq_some`, `Valid.erase_of_find?_eq_some`: what keys
  find after an update.
-/

namespace Lox

namespace Slot

variable {α : Type}

/-- Whether a slot counts towards the load of a table: entries do, and tombstones. -/
def inUse : Slot α → Bool
  | .vacant => false
  | _ => true

/-- Whether a slot holds an entry. -/
def isEntry (s : Slot α) : Bool := s.entry?.isSome

@[simp] theorem inUse_vacant : (vacant : Slot α).inUse = false := rfl

@[simp] theorem inUse_tombstone : (tombstone : Slot α).inUse = true := rfl

@[simp] theorem inUse_entry (key : Symbol) (value : α) : (entry key value).inUse = true := rfl

@[simp] theorem isEntry_vacant : (vacant : Slot α).isEntry = false := rfl

@[simp] theorem isEntry_tombstone : (tombstone : Slot α).isEntry = false := rfl

@[simp] theorem isEntry_entry (key : Symbol) (value : α) : (entry key value).isEntry = true := rfl

theorem entry?_eq_some_iff {s : Slot α} {e : Symbol × α} :
    s.entry? = some e ↔ s = entry e.1 e.2 := by
  cases s with
  | vacant => exact ⟨nofun, nofun⟩
  | tombstone => exact ⟨nofun, nofun⟩
  | entry key value =>
    rw [ entry?, Option.some.injEq, Slot.entry.injEq, Prod.ext_iff]

end Slot

namespace SymbolTable

variable {α : Type} {slots : Array (Slot α)} {t : SymbolTable α} {key : Symbol} {value : α}

/-! ### Counting slots -/

/-- Changing one slot changes a count by what the two slots contribute. -/
theorem countP_setIfInBounds (p : Slot α → Bool) {i : Nat} {old : Slot α} (new : Slot α)
    (hold : slots[i]? = some old) :
    (slots.setIfInBounds i new).countP p + (if p old then 1 else 0) =
      slots.countP p + (if p new then 1 else 0) := by
  obtain ⟨hi, hget⟩ := Array.getElem?_eq_some_iff.mp hold
  have hle : (if p slots[i] then 1 else 0) ≤ slots.countP p := Array.boole_getElem_le_countP hi
  rw [Array.setIfInBounds, dif_pos hi, Array.countP_set hi, ← hget]
  omega

/-- If not all slots are in use, one is vacant. -/
theorem exists_vacant (h : slots.countP Slot.inUse < slots.size) :
    ∃ i : Nat, slots[i]? = some .vacant := by
  have hnot : ¬∀ s ∈ slots, s.inUse := fun hall => Nat.ne_of_lt h (Array.countP_eq_size.mpr hall)
  obtain ⟨s, hfree⟩ := Classical.not_forall.mp hnot
  obtain ⟨hmem, hfree⟩ := Classical.not_imp.mp hfree
  obtain ⟨i, hi, hget⟩ := Array.getElem_of_mem hmem
  refine ⟨i, ?_⟩
  rw [Array.getElem?_eq_getElem hi, hget]
  cases s with
  | vacant => rfl
  | tombstone => exact absurd rfl hfree
  | entry k v => exact absurd rfl hfree

/-! ### Holding -/

/-- The key stands with the value in some slot. -/
def Holds (slots : Array (Slot α)) (key : Symbol) (value : α) : Prop :=
  ∃ i : Nat, slots[i]? = some (.entry key value)

theorem mem_entries_iff (t : SymbolTable α) (key : Symbol) (value : α) :
    (key, value) ∈ t.entries ↔ Holds t.slots key value := by
  rw [entries, List.mem_filterMap]
  constructor
  · rintro ⟨s, hmem, hs⟩
    obtain ⟨i, hi⟩ := List.mem_iff_getElem?.mp hmem
    exact ⟨i, by rw [← Array.getElem?_toList, hi, Slot.entry?_eq_some_iff.mp hs]⟩
  · rintro ⟨i, hi⟩
    exact ⟨_, List.mem_iff_getElem?.mpr ⟨i, by rw [Array.getElem?_toList, hi]⟩, rfl⟩

theorem length_entries (t : SymbolTable α) : t.entries.length = t.slots.countP Slot.isEntry := by
  rw [entries, List.length_filterMap_eq_countP, Array.countP_toList]
  rfl

/-- Entries are in use. -/
theorem countP_isEntry_le (slots : Array (Slot α)) :
    slots.countP Slot.isEntry ≤ slots.countP Slot.inUse := by
  rw [← Array.countP_toList, ← Array.countP_toList]
  refine List.countP_mono_left fun s _ h => ?_
  obtain ⟨e, he⟩ := Option.isSome_iff_exists.mp h
  rw [Slot.entry?_eq_some_iff.mp he, Slot.inUse_entry]

theorem Chained.nodup_entries (h : Chained t.slots) : (t.entries.map Prod.fst).Nodup := by
  rw [List.nodup_iff_pairwise_ne, List.pairwise_map, entries, List.pairwise_filterMap,
    List.pairwise_iff_getElem]
  intro i j hi hj hij e he f hf heq
  have entry_at : ∀ {n : Nat} (hn : n < t.slots.toList.length) {e : Symbol × α},
      Slot.entry? t.slots.toList[n] = some e → t.slots[n]? = some (.entry e.1 e.2) := by
    intro n hn e he
    rw [← Array.getElem?_toList, List.getElem?_eq_getElem hn, Slot.entry?_eq_some_iff.mp he]
  have hf' := entry_at hj hf
  rw [← heq] at hf'
  exact Nat.ne_of_lt hij (h.unique (entry_at hi he) hf')

/-! ### Placing -/

/-- Where `locate` ends there is a slot, and it holds nothing but possibly the key. -/
theorem Chained.locate_spec (h : Chained slots) (hroom : ∃ i : Nat, slots[i]? = some .vacant)
    (key : Symbol) :
    (∃ v, slots[locate slots key]? = some (.entry key v)) ∨
      ((∀ (i : Nat) (v : α), slots[i]? ≠ some (.entry key v)) ∧
        (slots[locate slots key]? = some .vacant ∨ slots[locate slots key]? = some .tombstone)) := by
  by_cases hpresent : ∃ (i : Nat) (v : α), slots[i]? = some (.entry key v)
  · obtain ⟨i, v, hentry⟩ := hpresent
    exact .inl ⟨v, by rw [h.locate_of_entry hentry]; exact hentry⟩
  · have habsent : ∀ (i : Nat) (v : α), slots[i]? ≠ some (.entry key v) :=
      fun i v hv => hpresent ⟨i, v, hv⟩
    obtain ⟨i, hvacant⟩ := hroom
    obtain ⟨n, -, hlocate, hfree, -⟩ := locate_of_absent hvacant habsent
    exact .inr ⟨habsent, hlocate ▸ hfree⟩

/-- After placing an entry the key stands with the new value, and the others as before. -/
theorem Chained.holds_set_entry (h : Chained slots) (key : Symbol) (value : α)
    (hroom : ∃ i : Nat, slots[i]? = some .vacant) (k : Symbol) (v : α) :
    Holds (slots.setIfInBounds (locate slots key) (.entry key value)) k v ↔
      if k = key then v = value else Holds slots k v := by
  have hbound : locate slots key < slots.size := by
    rcases h.locate_spec hroom key with ⟨w, hw⟩ | ⟨-, hw | hw⟩ <;>
      exact (Array.getElem?_eq_some_iff.mp hw).1
  have hself : (slots.setIfInBounds (locate slots key) (.entry key value))[locate slots key]? =
      some (.entry key value) := Array.getElem?_setIfInBounds_self_of_lt hbound
  by_cases hk : k = key
  · subst hk
    rw [if_pos rfl]
    constructor
    · rintro ⟨i, hi⟩
      rw [(h.set_entry _ value hroom).unique hi hself, hself] at hi
      injection hi with hi
      injection hi with _ hi
      exact hi.symm
    · rintro rfl
      exact ⟨_, hself⟩
  · rw [if_neg hk]
    constructor
    · rintro ⟨i, hi⟩
      by_cases hij : locate slots key = i
      · rw [← hij, hself, Option.some.injEq, Slot.entry.injEq] at hi
        exact absurd hi.1.symm hk
      · exact ⟨i, by rwa [Array.getElem?_setIfInBounds_ne hij] at hi⟩
    · rintro ⟨i, hi⟩
      have hij : locate slots key ≠ i := by
        rintro rfl
        rcases h.locate_spec hroom key with ⟨w, hw⟩ | ⟨-, hw | hw⟩
        · rw [hi, Option.some.injEq, Slot.entry.injEq] at hw
          exact hk hw.1
        · simp [hi] at hw
        · simp [hi] at hw
      exact ⟨i, by rwa [Array.getElem?_setIfInBounds_ne hij]⟩

/-- Placing entries with different new keys into slots with room for all of them. -/
theorem foldl_place (entries : List (Symbol × α)) (h : Chained slots)
    (hroom : slots.countP Slot.inUse + entries.length < slots.size)
    (hnodup : (entries.map Prod.fst).Nodup)
    (hnew : ∀ e ∈ entries, ∀ v, ¬Holds slots e.1 v)
    (hgrave : ∀ i : Nat, slots[i]? ≠ some .tombstone) :
    Chained (entries.foldl place slots) ∧ (entries.foldl place slots).size = slots.size ∧
      (entries.foldl place slots).countP Slot.inUse =
        slots.countP Slot.inUse + entries.length ∧
      (entries.foldl place slots).countP Slot.isEntry =
        slots.countP Slot.isEntry + entries.length ∧
      ∀ k v, Holds (entries.foldl place slots) k v ↔ Holds slots k v ∨ (k, v) ∈ entries := by
  induction entries generalizing slots with
  | nil => simp [h]
  | cons e rest ih =>
    rw [List.length_cons] at hroom
    rw [List.map_cons, List.nodup_cons] at hnodup
    have hvacant : ∃ i : Nat, slots[i]? = some .vacant := exists_vacant (by omega)
    have hslot : slots[locate slots e.1]? = some .vacant := by
      rcases h.locate_spec hvacant e.1 with ⟨v, hv⟩ | ⟨-, hv | hv⟩
      · exact absurd ⟨_, hv⟩ (hnew e (List.mem_cons_self ..) v)
      · exact hv
      · exact absurd hv (hgrave _)
    have hholds := h.holds_set_entry e.1 e.2 hvacant
    have huse := countP_setIfInBounds Slot.inUse (.entry e.1 e.2) hslot
    have hent := countP_setIfInBounds Slot.isEntry (.entry e.1 e.2) hslot
    have hsize : (place slots e).size = slots.size := Array.size_setIfInBounds
    simp only [Slot.inUse_entry, Slot.inUse_vacant, Slot.isEntry_entry, Slot.isEntry_vacant,
      if_true, Bool.false_eq_true, if_false, Nat.add_zero] at huse hent
    obtain ⟨hch, hsz, huse', hent', hall⟩ := @ih (place slots e)
      (h.set_entry e.1 e.2 hvacant) (by rw [hsize, place, huse]; omega) hnodup.2
      (fun f hf v hv => by
        rw [place, hholds] at hv
        by_cases hkey : f.1 = e.1
        · exact hnodup.1 (List.mem_map.mpr ⟨f, hf, hkey⟩)
        · rw [if_neg hkey] at hv
          exact hnew f (List.mem_cons_of_mem _ hf) v hv)
      (fun i hi => by
        rw [place, Array.getElem?_setIfInBounds] at hi
        split at hi
        · split at hi <;> simp at hi
        · exact hgrave i hi)
    rw [List.foldl_cons, List.length_cons]
    refine ⟨hch, hsz.trans hsize, ?_, ?_, fun k v => ?_⟩
    · rw [huse', place, huse]; omega
    · rw [hent', place]
      have : (slots.setIfInBounds (locate slots e.1) (.entry e.1 e.2)).countP Slot.isEntry =
          slots.countP Slot.isEntry + 1 := hent
      omega
    · rw [hall, place, hholds, List.mem_cons]
      by_cases hkey : k = e.1
      · subst hkey
        have hnone : ¬Holds slots e.1 v := hnew e (List.mem_cons_self ..) v
        rw [if_pos rfl]
        constructor
        · rintro (rfl | hmem)
          · exact .inr (.inl rfl)
          · exact .inr (.inr hmem)
        · rintro (hold | heq | hmem)
          · exact absurd hold hnone
          · exact .inl (congrArg Prod.snd heq)
          · exact .inr hmem
      · rw [if_neg hkey]
        constructor
        · rintro (hold | hmem)
          · exact .inl hold
          · exact .inr (.inr hmem)
        · rintro (hold | heq | hmem)
          · exact .inl hold
          · exact absurd (congrArg Prod.fst heq) hkey
          · exact .inr hmem

/-! ### The invariant -/

/-- No slots, or a power of two of them that is not too small. -/
def ValidCapacity (n : Nat) : Prop := n = 0 ∨ minCapacity ≤ n ∧ n.isPowerOfTwo

/-- What is true of every table that starts empty and changes by the updates only. -/
structure Valid (t : SymbolTable α) : Prop where
  /-- The number of slots is one that growing leads to. -/
  capacity : ValidCapacity t.capacity
  /-- Entries and tombstones are counted. -/
  used : t.used = t.slots.countP Slot.inUse
  /-- Entries are counted. -/
  size : t.size = t.slots.countP Slot.isEntry
  /-- At most three quarters of the slots are in use. -/
  load : 4 * t.used ≤ 3 * t.capacity
  /-- Every entry can be reached from its home. -/
  chained : Chained t.slots

theorem valid_empty : Valid (empty : SymbolTable α) where
  capacity := .inl rfl
  used := rfl
  size := rfl
  load := Nat.le_refl 0
  chained := chained_replicate 0

theorem find?_empty (key : Symbol) : (empty : SymbolTable α).find? key = none := rfl

/-- A table that is not full has a vacant slot. -/
theorem Valid.exists_vacant (h : Valid t) (hroom : t.isFull = false) :
    ∃ i : Nat, t.slots[i]? = some .vacant := by
  rw [isFull, decide_eq_false_iff_not, SymbolTable.capacity] at hroom
  refine SymbolTable.exists_vacant ?_
  rw [← h.used]
  omega

/-- A table with slots has a vacant one. -/
theorem Valid.exists_vacant_of_pos (h : Valid t) (hpos : 0 < t.slots.size) :
    ∃ i : Nat, t.slots[i]? = some .vacant := by
  have hload := h.load
  rw [SymbolTable.capacity] at hload
  refine SymbolTable.exists_vacant ?_
  rw [← h.used]
  omega

/-- **What a key finds** is the value it stands with in some slot. -/
theorem Valid.find?_eq_some_iff (h : Valid t) :
    t.find? key = some value ↔ Holds t.slots key value := by
  rw [find?, Array.getD_eq_getD_getElem?]
  rcases Nat.eq_zero_or_pos t.slots.size with hzero | hpos
  · have hnone : ∀ i : Nat, t.slots[i]? = none :=
      fun i => Array.getElem?_eq_none (hzero ▸ Nat.zero_le i)
    simp [hnone, Holds]
  · rcases h.chained.locate_spec (h.exists_vacant_of_pos hpos) key with ⟨v, hv⟩ | ⟨habsent, hfree⟩
    · rw [hv, Option.getD_some, Option.some.injEq]
      constructor
      · rintro rfl
        exact ⟨_, hv⟩
      · rintro ⟨i, hi⟩
        rw [h.chained.unique hi hv, hv] at hi
        injection hi with hi
        injection hi with _ hi
    · constructor
      · intro hfind
        rcases hfree with hfree | hfree <;> rw [hfree] at hfind <;> simp at hfind
      · rintro ⟨i, hi⟩
        exact absurd hi (habsent i value)

/-- Two tables in which the same keys stand with the same values find the same. -/
theorem Valid.find?_congr {t' : SymbolTable α} (h : Valid t) (h' : Valid t')
    (hsame : ∀ v, Holds t.slots key v ↔ Holds t'.slots key v) : t.find? key = t'.find? key := by
  refine Option.ext fun v => ?_
  rw [h.find?_eq_some_iff, h'.find?_eq_some_iff]
  exact hsame v

/-! ### Growing -/

/-- The capacity after growing. -/
def grownCapacity (t : SymbolTable α) : Nat :=
  if t.capacity < minCapacity then minCapacity else 2 * t.capacity

theorem Valid.length_entries_le (h : Valid t) : t.entries.length ≤ t.used := by
  rw [length_entries, h.used]
  exact countP_isEntry_le _

/-- The entries of a table load a grown one to less than three quarters. -/
theorem Valid.load_grown (h : Valid t) :
    (t.entries.length + 1) * 4 ≤ t.grownCapacity * 3 := by
  have hlen := h.length_entries_le
  have hload := h.load
  rw [grownCapacity]
  split <;> simp only [minCapacity] at * <;> omega

/-- The slots after growing hold the entries of the table and nothing else. -/
theorem Valid.slots_grow (h : Valid t) :
    Chained t.grow.slots ∧ t.grow.capacity = t.grownCapacity ∧
      t.grow.slots.countP Slot.inUse = t.entries.length ∧
      t.grow.slots.countP Slot.isEntry = t.entries.length ∧
      ∀ k v, Holds t.grow.slots k v ↔ Holds t.slots k v := by
  have hnone : ∀ (k : Symbol) (v : α), ¬Holds (Array.replicate t.grownCapacity .vacant) k v :=
    fun k v ⟨i, hi⟩ => by simp [Array.getElem?_replicate] at hi
  have huse : (Array.replicate t.grownCapacity (.vacant : Slot α)).countP Slot.inUse = 0 := by
    simp [Array.countP_replicate]
  have hent : (Array.replicate t.grownCapacity (.vacant : Slot α)).countP Slot.isEntry = 0 := by
    simp [Array.countP_replicate]
  have hroom := h.load_grown
  obtain ⟨hch, hsz, huse', hent', hall⟩ := foldl_place t.entries (chained_replicate t.grownCapacity)
    (by rw [huse, Array.size_replicate]; omega) h.chained.nodup_entries
    (fun e _ v => hnone e.1 v) (fun i hi => by simp [Array.getElem?_replicate] at hi)
  rw [Array.size_replicate] at hsz
  rw [huse, Nat.zero_add] at huse'
  rw [hent, Nat.zero_add] at hent'
  refine ⟨hch, hsz, huse', hent', fun k v => (hall k v).trans ?_⟩
  rw [mem_entries_iff]
  exact ⟨fun hor => hor.resolve_left (hnone k v), .inr⟩

/-- Growing keeps the invariant. -/
theorem Valid.grow (h : Valid t) : Valid t.grow := by
  obtain ⟨hch, hcap, huse, hent, -⟩ := h.slots_grow
  have hroom := h.load_grown
  have hused : t.grow.used = t.entries.length := rfl
  refine ⟨.inr ?_, hused.trans huse.symm, ?_, by omega, hch⟩
  · rw [hcap, grownCapacity]
    rcases h.capacity with hzero | ⟨hmin, k, hk⟩
    · rw [hzero, if_pos (by decide)]
      exact ⟨Nat.le_refl _, 3, rfl⟩
    · rw [if_neg (Nat.not_lt.mpr hmin)]
      refine ⟨by omega, k + 1, ?_⟩
      rw [hk, Nat.pow_succ, Nat.mul_comm]
  · rw [hent, length_entries]
    exact h.size

theorem Valid.isFull_grow (h : Valid t) : t.grow.isFull = false := by
  obtain ⟨-, hcap, -⟩ := h.slots_grow
  have hroom := h.load_grown
  have hused : t.grow.used = t.entries.length := rfl
  rw [isFull, decide_eq_false_iff_not, hused, hcap]
  omega

/-- The table that an entry is put into. -/
theorem Valid.roomy (h : Valid t) :
    ∃ t' : SymbolTable α, (if t.isFull then t.grow else t) = t' ∧ Valid t' ∧ t'.isFull = false ∧
      ∀ k v, Holds t'.slots k v ↔ Holds t.slots k v := by
  by_cases hfull : t.isFull
  · exact ⟨t.grow, if_pos hfull, h.grow, h.isFull_grow, h.slots_grow.2.2.2.2⟩
  · exact ⟨t, if_neg hfull, h, Bool.eq_false_iff.mpr hfull, fun _ _ => Iff.rfl⟩

/-! ### Updates -/

/-- Putting an entry into a table with room. The counters change by what stood there before. -/
theorem Valid.put (h : Valid t) (value : α) (hroom : t.isFull = false) {old : Slot α}
    (hold : t.slots[locate t.slots key]? = some old) :
    Valid ⟨t.slots.setIfInBounds (locate t.slots key) (.entry key value),
      t.used + (if old.inUse then 0 else 1), t.size + (if old.isEntry then 0 else 1)⟩ := by
  have hcap : (t.slots.setIfInBounds (locate t.slots key) (.entry key value)).size =
      t.capacity := Array.size_setIfInBounds
  have huse := countP_setIfInBounds Slot.inUse (.entry key value) hold
  have hent := countP_setIfInBounds Slot.isEntry (.entry key value) hold
  rw [← h.used, if_pos (show (Slot.entry key value).inUse from rfl)] at huse
  rw [← h.size, if_pos (show (Slot.entry key value).isEntry from rfl)] at hent
  refine ⟨?_, ?_, ?_, ?_, h.chained.set_entry key value (h.exists_vacant hroom)⟩
  · show ValidCapacity (Array.size _)
    rw [hcap]
    exact h.capacity
  · show t.used + _ = Array.countP _ _
    split at huse <;> simp_all
  · show t.size + _ = Array.countP _ _
    split at hent <;> simp_all
  · show 4 * (t.used + _) ≤ 3 * Array.size _
    rw [isFull, decide_eq_false_iff_not] at hroom
    rw [hcap]
    split <;> omega

/-- Inserting keeps the invariant, and the key then stands with the value. -/
theorem Valid.insert_spec (h : Valid t) (key : Symbol) (value : α) :
    Valid (t.insert key value).2 ∧ ∀ k v, Holds (t.insert key value).2.slots k v ↔
      if k = key then v = value else Holds t.slots k v := by
  obtain ⟨t', heq, hvalid, hroom, hsame⟩ := h.roomy
  have hvacant := hvalid.exists_vacant hroom
  have hholds : ∀ k v, Holds (t'.slots.setIfInBounds (locate t'.slots key) (.entry key value)) k v ↔
      if k = key then v = value else Holds t.slots k v := by
    intro k v
    rw [hvalid.chained.holds_set_entry key value hvacant, hsame]
  rw [insert, heq]
  simp only [Array.getD_eq_getD_getElem?]
  rcases hvalid.chained.locate_spec hvacant key with ⟨v, hv⟩ | ⟨-, hv | hv⟩
  all_goals
    have hput := hvalid.put value hroom hv
    rw [hv, Option.getD_some]
    exact ⟨hput, hholds⟩

theorem Valid.insert (h : Valid t) (key : Symbol) (value : α) : Valid (t.insert key value).2 :=
  (h.insert_spec key value).1

/-- **Inserting.** -/
theorem Valid.find?_insert (h : Valid t) (key : Symbol) (value : α) (k : Symbol) :
    (t.insert key value).2.find? k = if k = key then some value else t.find? k := by
  obtain ⟨hvalid, hholds⟩ := h.insert_spec key value
  refine Option.ext fun v => ?_
  rw [hvalid.find?_eq_some_iff, hholds]
  by_cases hk : k = key
  · rw [if_pos hk, if_pos hk, Option.some.injEq]
    exact eq_comm
  · rw [if_neg hk, if_neg hk, h.find?_eq_some_iff]

/-- Replacing the value of a key that has none changes nothing. -/
theorem replace_of_find?_eq_none (hnone : t.find? key = none) :
    t.replace key value = (none, t) := by
  rw [find?] at hnone
  rw [replace]
  split at hnone
  · simp at hnone
  · rfl

/-- **Replacing** the value of a key that has one. -/
theorem Valid.replace_of_find?_eq_some (h : Valid t) {old : α} (hold : t.find? key = some old)
    (value : α) :
    (t.replace key value).1 = some old ∧ Valid (t.replace key value).2 ∧
      ∀ k, (t.replace key value).2.find? k = if k = key then some value else t.find? k := by
  obtain ⟨i, hi⟩ := h.find?_eq_some_iff.mp hold
  obtain ⟨hlt, -⟩ := Array.getElem?_eq_some_iff.mp hi
  have hvacant := h.exists_vacant_of_pos (Nat.zero_lt_of_lt hlt)
  have hloc : locate t.slots key = i := h.chained.locate_of_entry hi
  have hentry : t.slots[locate t.slots key]? = some (.entry key old) := hloc ▸ hi
  have heq : t.replace key value =
      (some old, ⟨t.slots.setIfInBounds (locate t.slots key) (.entry key value), t.used,
        t.size⟩) := by
    rw [replace]
    simp only [Array.getD_eq_getD_getElem?]
    rw [hentry, Option.getD_some]
  have huse := countP_setIfInBounds Slot.inUse (.entry key value) hentry
  have hent := countP_setIfInBounds Slot.isEntry (.entry key value) hentry
  replace huse := Nat.add_right_cancel huse
  replace hent := Nat.add_right_cancel hent
  have hcap : (t.slots.setIfInBounds (locate t.slots key) (.entry key value)).size =
      t.capacity := Array.size_setIfInBounds
  have hvalid : Valid (t.replace key value).2 := by
    rw [heq]
    refine ⟨?_, h.used.trans huse.symm, h.size.trans hent.symm, ?_,
      h.chained.set_entry key value hvacant⟩
    · show ValidCapacity (Array.size _)
      rw [hcap]
      exact h.capacity
    · show 4 * t.used ≤ 3 * Array.size _
      rw [hcap]
      exact h.load
  refine ⟨by rw [heq], hvalid, fun k => Option.ext fun v => ?_⟩
  rw [hvalid.find?_eq_some_iff, heq, h.chained.holds_set_entry key value hvacant]
  by_cases hk : k = key
  · rw [if_pos hk, if_pos hk, Option.some.injEq]
    exact eq_comm
  · rw [if_neg hk, if_neg hk, h.find?_eq_some_iff]

/-- After burying an entry its key stands in no slot, and the others as before. -/
theorem Chained.holds_set_tombstone (h : Chained slots) {i : Nat} {old : α}
    (hentry : slots[i]? = some (.entry key old)) (k : Symbol) (v : α) :
    Holds (slots.setIfInBounds i .tombstone) k v ↔ k ≠ key ∧ Holds slots k v := by
  have hself : (slots.setIfInBounds i (.tombstone : Slot α))[i]? = some .tombstone :=
    Array.getElem?_setIfInBounds_self_of_lt (Array.getElem?_eq_some_iff.mp hentry).1
  constructor
  · rintro ⟨j, hj⟩
    have hij : i ≠ j := by
      rintro rfl
      exact absurd (hself.symm.trans hj) nofun
    rw [Array.getElem?_setIfInBounds_ne hij] at hj
    refine ⟨?_, j, hj⟩
    rintro rfl
    exact hij (h.unique hentry hj)
  · rintro ⟨hk, j, hj⟩
    have hij : i ≠ j := by
      rintro rfl
      rw [hentry, Option.some.injEq, Slot.entry.injEq] at hj
      exact hk hj.1.symm
    exact ⟨j, by rwa [Array.getElem?_setIfInBounds_ne hij]⟩

/-- Erasing a key that has no value changes nothing. -/
theorem erase_of_find?_eq_none (hnone : t.find? key = none) : t.erase key = (false, t) := by
  rw [find?] at hnone
  rw [erase]
  split at hnone
  · simp at hnone
  · rfl

/-- **Erasing** a key that has a value. -/
theorem Valid.erase_of_find?_eq_some (h : Valid t) {old : α} (hold : t.find? key = some old) :
    (t.erase key).1 = true ∧ Valid (t.erase key).2 ∧
      ∀ k, (t.erase key).2.find? k = if k = key then none else t.find? k := by
  obtain ⟨i, hi⟩ := h.find?_eq_some_iff.mp hold
  obtain ⟨hlt, -⟩ := Array.getElem?_eq_some_iff.mp hi
  have hentry : t.slots[locate t.slots key]? = some (.entry key old) :=
    h.chained.locate_of_entry hi ▸ hi
  have heq : t.erase key =
      (true, ⟨t.slots.setIfInBounds (locate t.slots key) .tombstone, t.used, t.size - 1⟩) := by
    rw [erase]
    simp only [Array.getD_eq_getD_getElem?]
    rw [hentry, Option.getD_some]
  have huse := countP_setIfInBounds Slot.inUse .tombstone hentry
  have hent := countP_setIfInBounds Slot.isEntry .tombstone hentry
  rw [← h.size] at hent
  have hcap : (t.slots.setIfInBounds (locate t.slots key) .tombstone).size = t.capacity :=
    Array.size_setIfInBounds
  have hvalid : Valid (t.erase key).2 := by
    rw [heq]
    refine ⟨?_, h.used.trans (Nat.add_right_cancel huse).symm, ?_, ?_,
      h.chained.set_tombstone _⟩
    · show ValidCapacity (Array.size _)
      rw [hcap]
      exact h.capacity
    · rw [Slot.isEntry_entry, if_pos rfl, Slot.isEntry_tombstone, if_neg nofun] at hent
      exact Nat.sub_eq_of_eq_add hent.symm
    · show 4 * t.used ≤ 3 * Array.size _
      rw [hcap]
      exact h.load
  refine ⟨by rw [heq], hvalid, fun k => Option.ext fun v => ?_⟩
  rw [hvalid.find?_eq_some_iff, heq, h.chained.holds_set_tombstone hentry]
  by_cases hk : k = key
  · rw [if_pos hk]
    exact ⟨fun hboth => absurd hk hboth.1, nofun⟩
  · rw [if_neg hk, h.find?_eq_some_iff]
    exact and_iff_right hk

end SymbolTable

end Lox
