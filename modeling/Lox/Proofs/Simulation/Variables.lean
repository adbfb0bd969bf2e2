import Lox.Proofs.Draft.Scopes
import Lox.Semantics.Store
import Mathlib.Data.List.Forall2

/-!
# Variables and slots

The slot that a name has in the code is where the value is that the name has in the store: the
locals of all scopes, put one after the other, are the lowest values of the stack.

## Main definitions

* `Store.scopes`: the scopes that the code is compiled in, as they are in a store.
* `Store.values`: the values of all locals.

## Main results

* `Store.get_of_slot?`, `Store.assign_of_slot?`: reading and assigning a local.
* `Store.get_of_slot?_eq_none`, `Store.assign_of_slot?_eq_none`: reading and assigning a global.
* `Store.scopes_declare`, `Store.values_declare`: declaring a local.
-/

namespace Lox

/-- What corresponds to an element of the second list is at the same place in the first. -/
theorem exists_getElem?_of_forall₂ {α β : Type} {R : α → β → Prop} {l : List α} {l' : List β}
    (h : List.Forall₂ R l l') {k : Nat} {y : β} (hget : l'[k]? = some y) :
    ∃ x, l[k]? = some x ∧ R x y := by
  induction h generalizing k with
  | nil => exact absurd hget nofun
  | cons hxy _ ih =>
    cases k with
    | zero => exact ⟨_, rfl, Option.some.inj hget ▸ hxy⟩
    | succ k => exact ih hget

theorem forall₂_set {α β : Type} {R : α → β → Prop} {l : List α} {l' : List β}
    (h : List.Forall₂ R l l') (k : Nat) {x : α} {y : β} (hxy : R x y) :
    List.Forall₂ R (l.set k x) (l'.set k y) := by
  induction h generalizing k with
  | nil => exact .nil
  | cons hhead htail ih =>
    cases k with
    | zero => exact .cons hxy htail
    | succ k => exact .cons hhead (ih k)

/-! ### Frames -/

namespace Frame

variable {name : String} {x : Datum} {frame outer : Frame} {k : Nat}

theorem exists_of_slot? (h : slot? name (frame.map Prod.fst) = some k) :
    ∃ y, frame.lookup name = some y ∧ (frame.map Prod.snd).reverse[k]? = some y := by
  induction frame with
  | nil => exact absurd h nofun
  | cons binding frame ih =>
    obtain ⟨other, y⟩ := binding
    rw [List.map_cons, slot?] at h
    rw [List.map_cons, List.reverse_cons, List.lookup_cons]
    by_cases hname : other = name
    · rw [if_pos hname, List.length_map] at h
      obtain rfl := Option.some.inj h
      exact ⟨y, by simp [hname], by simp⟩
    · rw [if_neg hname] at h
      obtain ⟨z, hlookup, hget⟩ := ih h
      have hlt := (List.getElem?_eq_some_iff.mp hget).1
      rw [beq_eq_false_iff_ne.mpr (Ne.symm hname), List.getElem?_append_left hlt]
      exact ⟨z, hlookup, hget⟩

theorem lookup_eq_none (h : slot? name (frame.map Prod.fst) = none) :
    frame.lookup name = none := by
  rw [LocalScope.slot?_eq_none_iff] at h
  rw [List.lookup_eq_none_iff]
  intro binding hmem
  have hne : name ≠ binding.1 := by
    rintro rfl
    exact h (List.mem_map_of_mem hmem)
  exact bne_iff_ne.mpr hne

theorem map_fst_assign : (frame.assign name x).map Prod.fst = frame.map Prod.fst := by
  induction frame with
  | nil => rfl
  | cons binding frame ih =>
    rw [assign]
    split
    · rfl
    · rw [List.map_cons, ih, List.map_cons]

/-- Assigning a variable changes the value in its slot. -/
theorem reverse_map_snd_assign (h : slot? name (frame.map Prod.fst) = some k) :
    ((frame.assign name x).map Prod.snd).reverse = (frame.map Prod.snd).reverse.set k x := by
  induction frame with
  | nil => exact absurd h nofun
  | cons binding frame ih =>
    obtain ⟨other, y⟩ := binding
    rw [List.map_cons, slot?] at h
    rw [assign]
    by_cases hname : other = name
    · rw [if_pos hname, List.length_map] at h
      obtain rfl := Option.some.inj h
      rw [if_pos hname, List.map_cons, List.map_cons, List.reverse_cons, List.reverse_cons,
        List.set_append_right _ _ (by simp)]
      simp
    · rw [if_neg hname] at h
      obtain ⟨z, -, hget⟩ := exists_of_slot? h
      have hlt := (List.getElem?_eq_some_iff.mp hget).1
      rw [if_neg hname, List.map_cons, List.map_cons, List.reverse_cons, List.reverse_cons, ih h,
        List.set_append_left _ _ hlt]

theorem assign_append_of_isSome (h : (frame.lookup name).isSome) :
    assign name x (frame ++ outer) = frame.assign name x ++ outer := by
  induction frame with
  | nil => exact absurd h nofun
  | cons binding frame ih =>
    obtain ⟨other, y⟩ := binding
    rw [List.cons_append, assign, assign]
    by_cases hname : other = name
    · rw [if_pos hname, if_pos hname, List.cons_append]
    · rw [List.lookup_cons, beq_eq_false_iff_ne.mpr (Ne.symm hname)] at h
      rw [if_neg hname, if_neg hname, ih h, List.cons_append]

theorem assign_append_of_not_isSome (h : ¬(frame.lookup name).isSome) :
    assign name x (frame ++ outer) = frame ++ outer.assign name x := by
  induction frame with
  | nil => rfl
  | cons binding frame ih =>
    obtain ⟨other, y⟩ := binding
    have hname : other ≠ name := by
      rintro rfl
      simp at h
    rw [List.lookup_cons, beq_eq_false_iff_ne.mpr (Ne.symm hname)] at h
    rw [List.cons_append, assign, if_neg hname, ih h, List.cons_append]

end Frame

namespace Store

variable {s : Store} {name : String} {x : Datum} {k : Nat}

theorem flatten_assignIn (frames : List Frame) :
    (assignIn name x frames).flatten = Frame.assign name x frames.flatten := by
  induction frames with
  | nil => rfl
  | cons frame outer ih =>
    rw [assignIn, List.flatten_cons]
    by_cases h : (frame.lookup name).isSome
    · rw [if_pos h, Frame.assign_append_of_isSome h, List.flatten_cons]
    · rw [if_neg h, Frame.assign_append_of_not_isSome h, List.flatten_cons, ih]

theorem map_assignIn (frames : List Frame) :
    (assignIn name x frames).map (·.map Prod.fst) = frames.map (·.map Prod.fst) := by
  induction frames with
  | nil => rfl
  | cons frame outer ih =>
    rw [assignIn]
    split
    · rw [List.map_cons, Frame.map_fst_assign, List.map_cons]
    · rw [List.map_cons, ih, List.map_cons]

/-! ### Stores -/

/-- The names of the locals in each open scope. -/
def scopes (s : Store) : Scopes := s.frames.map (·.map Prod.fst)

/-- The values of all locals, the innermost first. -/
def values (s : Store) : List Datum := s.locals.map Prod.snd

theorem names_scopes (s : Store) : s.scopes.names = s.locals.map Prod.fst := List.map_flatten.symm

/-- The value of a local is in its slot. -/
theorem get_of_slot? (h : slot? name s.scopes.names = some k) :
    ∃ y, s.get name = some y ∧ s.values.reverse[k]? = some y := by
  rw [names_scopes] at h
  obtain ⟨y, hlookup, hget⟩ := Frame.exists_of_slot? h
  exact ⟨y, by rw [Store.get, hlookup, Option.some_or], hget⟩

/-- A name without a slot is that of a global. -/
theorem get_of_slot?_eq_none (h : slot? name s.scopes.names = none) :
    s.get name = s.globals name := by
  rw [names_scopes] at h
  rw [Store.get, Frame.lookup_eq_none h, Option.none_or]

/-- Assigning a local changes the value in its slot only. -/
theorem assign_of_slot? (h : slot? name s.scopes.names = some k) (x : Datum) :
    ∃ s', s.assign name x = some s' ∧ s'.scopes = s.scopes ∧
      s'.values.reverse = s.values.reverse.set k x ∧ s'.globals = s.globals ∧
      s'.output = s.output := by
  rw [names_scopes] at h
  obtain ⟨y, hlookup, -⟩ := Frame.exists_of_slot? h
  have hassign : s.assign name x = some { s with frames := assignIn name x s.frames } := by
    rw [assign, hlookup]
    exact if_pos rfl
  refine ⟨_, hassign, map_assignIn _, ?_, rfl, rfl⟩
  rw [values, locals, flatten_assignIn]
  exact Frame.reverse_map_snd_assign h

theorem assign_of_slot?_eq_none (h : slot? name s.scopes.names = none) (x : Datum) :
    s.assign name x = if (s.globals name).isSome then
      some { s with globals := Function.update s.globals name (some x) } else none := by
  rw [names_scopes] at h
  rw [assign, Frame.lookup_eq_none h]
  exact if_neg nofun

theorem scopes_declare (s : Store) (name : String) (x : Datum) :
    (s.declare name x).scopes = s.scopes.declare name := by
  obtain ⟨globals, frames, output⟩ := s
  cases frames with
  | nil | cons => rfl

/-- The value of a new local is above the others. -/
theorem values_declare (h : s.scopes ≠ []) (name : String) (x : Datum) :
    (s.declare name x).values = x :: s.values ∧ (s.declare name x).globals = s.globals ∧
      (s.declare name x).output = s.output := by
  obtain ⟨globals, frames, output⟩ := s
  cases frames with
  | nil => exact absurd rfl h
  | cons => exact ⟨rfl, rfl, rfl⟩

end Store

end Lox
