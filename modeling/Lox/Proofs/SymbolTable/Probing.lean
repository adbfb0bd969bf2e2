import Lox.SymbolTable

/-!
# Probing

Where a key's walk through the slots of a table ends. The walk starts at the key's home slot and
goes on cyclically, so after `n` steps it is at `walk slots key n`; in the first `slots.size` steps
it comes to every slot once.

`Chained` is what insertion keeps and deletion does not break: every key is in one slot only, and
no slot before it on its walk is vacant. Under it `locate` finds the slot of a key that is there.
For a key that is not there, it finds a slot to put it into if some slot is vacant.

## Main definitions

* `walk`: the slot a key's walk is at after a number of steps.
* `Chained`: every entry can be reached from its home.

## Main results

* `Chained.locate_of_entry`, `locate_of_absent`: where `locate` ends.
* `Chained.set_entry`, `Chained.set_tombstone`: putting a key where `locate` ends and burying an
  entry keep the slots chained.
-/

namespace Lox

namespace SymbolTable

variable {α : Type} {slots : Array (Slot α)} {key : Symbol}

/-! ### Walks -/

/-- The slot a key's walk is at after a number of steps. -/
def walk (slots : Array (Slot α)) (key : Symbol) (n : Nat) : Nat :=
  (home slots key + n) % slots.size

theorem walk_zero (slots : Array (Slot α)) (key : Symbol) : walk slots key 0 = home slots key := by
  rw [walk, Nat.add_zero, home, Nat.mod_mod]

theorem walk_succ (slots : Array (Slot α)) (key : Symbol) (n : Nat) :
    walk slots key (n + 1) = (walk slots key n + 1) % slots.size := by
  rw [walk, walk, Nat.mod_add_mod, Nat.add_assoc]

theorem walk_lt (hpos : 0 < slots.size) (key : Symbol) (n : Nat) :
    walk slots key n < slots.size :=
  Nat.mod_lt _ hpos

/-- A walk depends on the number of slots only. -/
theorem walk_congr {slots' : Array (Slot α)} (h : slots'.size = slots.size) (key : Symbol)
    (n : Nat) : walk slots' key n = walk slots key n := by
  rw [walk, walk, home, home, h]

/-- Every slot is on the walk of every key. -/
theorem exists_walk_eq (key : Symbol) {i : Nat} (hi : i < slots.size) :
    ∃ n < slots.size, walk slots key n = i := by
  have hhome : home slots key < slots.size := Nat.mod_lt _ (Nat.zero_lt_of_lt hi)
  by_cases hle : home slots key ≤ i
  · refine ⟨i - home slots key, by omega, ?_⟩
    rw [walk, show home slots key + (i - home slots key) = i by omega, Nat.mod_eq_of_lt hi]
  · refine ⟨i + slots.size - home slots key, by omega, ?_⟩
    rw [walk, show home slots key + (i + slots.size - home slots key) = i + slots.size by omega,
      Nat.add_mod_right, Nat.mod_eq_of_lt hi]

/-- A walk comes to a slot once in as many steps as there are slots. -/
theorem walk_injective {n m : Nat} (hn : n < slots.size) (hm : m < slots.size)
    (h : walk slots key n = walk slots key m) : n = m := by
  have hhome : home slots key < slots.size := Nat.mod_lt _ (Nat.zero_lt_of_lt hn)
  have reduce : ∀ k < slots.size, walk slots key k = home slots key + k ∨
      walk slots key k + slots.size = home slots key + k := by
    intro k hk
    by_cases hlt : home slots key + k < slots.size
    · exact .inl (Nat.mod_eq_of_lt hlt)
    · right
      rw [walk, Nat.mod_eq_sub_mod (Nat.not_lt.mp hlt), Nat.mod_eq_of_lt (by omega)]
      omega
  rcases reduce n hn with hn' | hn' <;> rcases reduce m hm with hm' | hm' <;>
    have := walk_lt (Nat.zero_lt_of_lt hn) key n <;> omega

/-! ### Where probing ends -/

/-- Probing for a key that is on its walk, with no vacant slot before it. -/
theorem probe_of_entry {n k : Nat} {value : α} (grave : Option Nat) (hn : n ≤ k)
    (hk : k < slots.size) (hentry : slots[walk slots key k]? = some (.entry key value))
    (hbefore : ∀ m < k, slots[walk slots key m]? ≠ some .vacant ∧
      ∀ v, slots[walk slots key m]? ≠ some (.entry key v)) :
    probe slots key (slots.size - n) (walk slots key n) grave = walk slots key k := by
  obtain ⟨d, rfl⟩ := Nat.exists_eq_add_of_le hn
  induction d generalizing n grave with
  | zero =>
    rw [show slots.size - n = slots.size - n - 1 + 1 by omega, probe]
    rw [Nat.add_zero] at hentry ⊢
    simp [hentry]
  | succ d ih =>
    have hnext : n + (d + 1) = n + 1 + d := by omega
    obtain ⟨hvacant, hother⟩ := hbefore n (by omega)
    obtain ⟨slot, hslot⟩ : ∃ slot, slots[walk slots key n]? = some slot :=
      ⟨_, Array.getElem?_eq_getElem (walk_lt (by omega) key n)⟩
    have hstep := fun grave => ih (n := n + 1) grave (by omega) (hnext ▸ hk) (hnext ▸ hentry)
      (hnext ▸ hbefore)
    rw [show slots.size - n = slots.size - (n + 1) + 1 by omega, probe, ← walk_succ, hslot, hnext]
    cases slot with
    | vacant => exact absurd hslot hvacant
    | tombstone => exact hstep _
    | entry other v =>
      have hne : other ≠ key := fun heq => hother v (heq ▸ hslot)
      simpa only [if_neg hne] using hstep grave

/-- Probing for a key that has no entry, when some slot further on is vacant. It ends at the first
tombstone or vacant slot from there on, unless a tombstone was passed earlier. -/
theorem probe_of_absent {n k : Nat} (grave : Option Nat) (hn : n ≤ k) (hk : k < slots.size)
    (hvacant : slots[walk slots key k]? = some .vacant)
    (habsent : ∀ (i : Nat) (v : α), slots[i]? ≠ some (.entry key v)) :
    ∃ j, n ≤ j ∧ j < slots.size ∧
      probe slots key (slots.size - n) (walk slots key n) grave = grave.getD (walk slots key j) ∧
      (slots[walk slots key j]? = some .vacant ∨ slots[walk slots key j]? = some .tombstone) ∧
      ∀ m, n ≤ m → m < j → slots[walk slots key m]? ≠ some .vacant := by
  obtain ⟨d, rfl⟩ := Nat.exists_eq_add_of_le hn
  induction d generalizing n grave with
  | zero =>
    refine ⟨n, Nat.le_refl n, hk, ?_, .inl hvacant, fun m hle hlt => by omega⟩
    rw [show slots.size - n = slots.size - n - 1 + 1 by omega, probe]
    rw [Nat.add_zero] at hvacant
    rw [hvacant]
  | succ d ih =>
    have hnext : n + (d + 1) = n + 1 + d := by omega
    have hstep := fun grave => ih (n := n + 1) grave (by omega) (hnext ▸ hk) (hnext ▸ hvacant)
    obtain ⟨slot, hslot⟩ : ∃ slot, slots[walk slots key n]? = some slot :=
      ⟨_, Array.getElem?_eq_getElem (walk_lt (by omega) key n)⟩
    rw [show slots.size - n = slots.size - (n + 1) + 1 by omega, probe, ← walk_succ, hslot]
    cases slot with
    | vacant =>
      exact ⟨n, Nat.le_refl n, by omega, rfl, .inl hslot, fun m hle hlt => by omega⟩
    | tombstone =>
      obtain ⟨j, hnj, hj, hprobe, hfree, hbefore⟩ := hstep (grave.or (some (walk slots key n)))
      cases grave with
      | none =>
        exact ⟨n, Nat.le_refl n, by omega, hprobe, .inr hslot, fun m hle hlt => by omega⟩
      | some g =>
        refine ⟨j, by omega, hj, hprobe, hfree, fun m hle hlt => ?_⟩
        rcases Nat.eq_or_lt_of_le hle with rfl | hlt'
        · simp [hslot]
        · exact hbefore m hlt' hlt
    | entry other v =>
      have hne : other ≠ key := fun heq => habsent _ v (heq ▸ hslot)
      obtain ⟨j, hnj, hj, hprobe, hfree, hbefore⟩ := hstep grave
      refine ⟨j, by omega, hj, by simpa only [if_neg hne] using hprobe, hfree,
        fun m hle hlt => ?_⟩
      rcases Nat.eq_or_lt_of_le hle with rfl | hlt'
      · simp [hslot]
      · exact hbefore m hlt' hlt

/-- **A key that has no entry.** If some slot is vacant, `locate` ends at a slot without entry, and
no slot before it on the walk is vacant. -/
theorem locate_of_absent {i : Nat} (hvacant : slots[i]? = some .vacant)
    (habsent : ∀ (i : Nat) (v : α), slots[i]? ≠ some (.entry key v)) :
    ∃ n < slots.size, locate slots key = walk slots key n ∧
      (slots[walk slots key n]? = some .vacant ∨ slots[walk slots key n]? = some .tombstone) ∧
      ∀ m < n, slots[walk slots key m]? ≠ some .vacant := by
  obtain ⟨hi, -⟩ := Array.getElem?_eq_some_iff.mp hvacant
  obtain ⟨k, hk, rfl⟩ := exists_walk_eq key hi
  obtain ⟨j, -, hj, hprobe, hfree, hbefore⟩ :=
    probe_of_absent none (Nat.zero_le k) hk hvacant habsent
  refine ⟨j, hj, ?_, hfree, fun m hm => hbefore m (Nat.zero_le m) hm⟩
  rw [locate, ← walk_zero]
  exact hprobe

/-! ### Chained slots -/

/-- Every key is in one slot only, and no slot before it on its walk is vacant. -/
structure Chained (slots : Array (Slot α)) : Prop where
  /-- No key has two entries. -/
  unique : ∀ {i j : Nat} {key : Symbol} {v w : α}, slots[i]? = some (.entry key v) →
    slots[j]? = some (.entry key w) → i = j
  /-- An entry can be reached from its home. -/
  reachable : ∀ {n : Nat} {key : Symbol} {v : α}, n < slots.size →
    slots[walk slots key n]? = some (.entry key v) →
    ∀ m < n, slots[walk slots key m]? ≠ some .vacant

theorem chained_replicate (n : Nat) : Chained (Array.replicate n (.vacant : Slot α)) where
  unique h _ := by simp [Array.getElem?_replicate] at h
  reachable _ h _ _ := by simp [Array.getElem?_replicate] at h

/-- **A key that has an entry.** -/
theorem Chained.locate_of_entry (h : Chained slots) {i : Nat} {value : α}
    (hentry : slots[i]? = some (.entry key value)) : locate slots key = i := by
  obtain ⟨hi, -⟩ := Array.getElem?_eq_some_iff.mp hentry
  obtain ⟨n, hn, rfl⟩ := exists_walk_eq key hi
  have hbefore : ∀ m < n, slots[walk slots key m]? ≠ some .vacant ∧
      ∀ v, slots[walk slots key m]? ≠ some (.entry key v) := by
    intro m hm
    refine ⟨h.reachable hn hentry m hm, fun v hv => ?_⟩
    exact Nat.ne_of_lt hm (walk_injective (by omega) hn (h.unique hv hentry))
  rw [locate, ← walk_zero]
  exact probe_of_entry none (Nat.zero_le n) hn hentry hbefore

/-- A slot that has changed to something else than vacant is not vacant, and any other slot is as it
was. -/
theorem ne_vacant_of_set {i j : Nat} {s : Slot α} (hs : s ≠ .vacant)
    (h : slots[j]? ≠ some .vacant) : (slots.setIfInBounds i s)[j]? ≠ some .vacant := by
  rw [Array.getElem?_setIfInBounds]
  split
  · split
    · exact fun heq => hs (Option.some.inj heq)
    · exact nofun
  · exact h

/-- **Placing an entry.** Where `locate` ends, the key can be put with any value: the slot holds
the key already, or nothing at all with no vacant slot before it on the walk. -/
theorem Chained.set_entry (h : Chained slots) (key : Symbol) (value : α)
    (hroom : ∃ i : Nat, slots[i]? = some .vacant) :
    Chained (slots.setIfInBounds (locate slots key) (.entry key value)) := by
  have hsize : (slots.setIfInBounds (locate slots key) (.entry key value)).size = slots.size :=
    Array.size_setIfInBounds
  by_cases hpresent : ∃ (i : Nat) (v : α), slots[i]? = some (.entry key v)
  · -- Only a value changes, so keys and vacant slots stay where they are.
    obtain ⟨i, v, hentry⟩ := hpresent
    obtain ⟨hi, -⟩ := Array.getElem?_eq_some_iff.mp hentry
    rw [h.locate_of_entry hentry] at hsize ⊢
    have hkey : ∀ {j : Nat} {other : Symbol} {w : α},
        (slots.setIfInBounds i (.entry key value))[j]? = some (.entry other w) →
        ∃ w', slots[j]? = some (.entry other w') := by
      intro j other w hj
      rw [Array.getElem?_setIfInBounds] at hj
      by_cases hij : i = j
      · subst hij
        rw [if_pos rfl, if_pos hi, Option.some.injEq, Slot.entry.injEq] at hj
        exact ⟨v, hj.1 ▸ hentry⟩
      · exact ⟨w, by rwa [if_neg hij] at hj⟩
    refine ⟨fun hj hk => ?_, fun hn hentry' m hm => ?_⟩
    · obtain ⟨_, hj⟩ := hkey hj
      obtain ⟨_, hk⟩ := hkey hk
      exact h.unique hj hk
    · obtain ⟨_, hw⟩ := hkey hentry'
      rw [walk_congr hsize] at hw ⊢
      exact ne_vacant_of_set nofun (h.reachable (hsize ▸ hn) hw m hm)
  · have habsent : ∀ (i : Nat) (v : α), slots[i]? ≠ some (.entry key v) :=
      fun i v hv => hpresent ⟨i, v, hv⟩
    obtain ⟨i, hvacant⟩ := hroom
    obtain ⟨n, hn, hlocate, hfree, hbefore⟩ := locate_of_absent hvacant habsent
    rw [hlocate] at hsize ⊢
    -- Another key's entry is where it was; the new key's only entry is at the end of the walk.
    have hother : ∀ {j : Nat} {other : Symbol} {w : α},
        (slots.setIfInBounds (walk slots key n) (.entry key value))[j]? = some (.entry other w) →
        other = key ∧ j = walk slots key n ∨ other ≠ key ∧ slots[j]? = some (.entry other w) := by
      intro j other w hj
      rw [Array.getElem?_setIfInBounds] at hj
      by_cases hwj : walk slots key n = j
      · rw [if_pos hwj, if_pos (walk_lt (by omega) key n), Option.some.injEq,
          Slot.entry.injEq] at hj
        exact .inl ⟨hj.1.symm, hwj.symm⟩
      · rw [if_neg hwj] at hj
        exact .inr ⟨fun heq => habsent j w (heq ▸ hj), hj⟩
    refine ⟨fun hj hk => ?_, fun {k other w} hk hentry m hm => ?_⟩
    · rcases hother hj with ⟨heq, rfl⟩ | ⟨hne, hj⟩ <;> rcases hother hk with ⟨heq', rfl⟩ | ⟨hne', hk⟩
      · rfl
      · exact absurd heq hne'
      · exact absurd heq' hne
      · exact h.unique hj hk
    · rw [walk_congr hsize] at hentry ⊢
      rw [hsize] at hk
      rcases hother hentry with ⟨rfl, hwalk⟩ | ⟨-, hold⟩
      · have hkn : k = n := walk_injective hk hn hwalk
        exact ne_vacant_of_set nofun (hbefore m (hkn ▸ hm))
      · exact ne_vacant_of_set nofun (h.reachable hk hold m hm)

/-- **Burying an entry.** A tombstone in place of an entry lets walks pass. -/
theorem Chained.set_tombstone (h : Chained slots) (i : Nat) :
    Chained (slots.setIfInBounds i .tombstone) := by
  have hsize : (slots.setIfInBounds i .tombstone).size = slots.size := Array.size_setIfInBounds
  have hold : ∀ {j : Nat} {key : Symbol} {v : α},
      (slots.setIfInBounds i .tombstone)[j]? = some (.entry key v) →
      slots[j]? = some (.entry key v) := by
    intro j key v hj
    rw [Array.getElem?_setIfInBounds] at hj
    split at hj
    · split at hj <;> simp at hj
    · exact hj
  refine ⟨fun hj hk => h.unique (hold hj) (hold hk), fun hn hentry m hm => ?_⟩
  rw [walk_congr hsize] at hentry ⊢
  exact ne_vacant_of_set nofun (h.reachable (hsize ▸ hn) (hold hentry) m hm)

end SymbolTable

end Lox
