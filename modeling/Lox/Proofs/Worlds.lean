import Lox.Proofs.SymbolTable.Contents
import Lox.Proofs.Symbols
import Lox.Semantics.Store

/-!
# Worlds by names

In a world that has come about by the operations on worlds, the globals are filed under symbols of
the interner and their values are of its making. In such a world a global can be spoken of by its
name alone, and interning more texts changes nothing about the globals.

## Main definitions

* `SymbolTable.Names`: a table of values that belongs to an interner.
* `World.WellFormed`: the globals belong to the interner.

## Main results

* `World.wellFormed_empty`, `World.WellFormed.intern`, `World.WellFormed.importGlobals`: how worlds
  come about.
* `World.WellFormed.globalsByName_insert`, `World.WellFormed.globalsByName_replace`: what becomes of
  the globals by names.
-/

namespace Lox

/-- The table is in order, its keys are symbols of the interner, and its values denote data. -/
structure SymbolTable.Names (i : Interner) (t : SymbolTable Value) : Prop where
  valid : t.Valid
  entries : ∀ symbol v, t.find? symbol = some v → i.Issued symbol ∧ ∃ x, v.Denotes i x

/-- The globals belong to the interner. -/
def World.WellFormed (w : World) : Prop := w.globals.Names w.interner

namespace SymbolTable

variable {i j : Interner} {t other : SymbolTable Value} {symbol : Symbol} {v : Value} {x : Datum}

theorem names_empty (i : Interner) : Names i .empty where
  valid := valid_empty
  entries symbol _ h := absurd ((find?_empty symbol).symm.trans h) nofun

theorem Names.mono (h : t.Names i) (hij : i.Grows j) : t.Names j where
  valid := h.valid
  entries symbol v hfind := by
    obtain ⟨hissued, x, hx⟩ := h.entries symbol v hfind
    exact ⟨hissued.mono hij, x, hx.mono hij⟩

/-- A table that finds what another finds but for one key of the interner belongs to it as well. -/
theorem Names.of_find? (h : t.Names i) (hvalid : other.Valid) (hissued : i.Issued symbol)
    (hv : v.Denotes i x)
    (hfind : ∀ k, other.find? k = if k = symbol then some v else t.find? k) : other.Names i where
  valid := hvalid
  entries k w hk := by
    rw [hfind] at hk
    by_cases heq : k = symbol
    · rw [if_pos heq] at hk
      obtain rfl := Option.some.inj hk
      exact ⟨heq ▸ hissued, x, hv⟩
    · rw [if_neg heq] at hk
      exact h.entries k w hk

theorem Names.insert (h : t.Names i) (hissued : i.Issued symbol) (hv : v.Denotes i x) :
    (t.insert symbol v).2.Names i :=
  h.of_find? (h.valid.insert symbol v) hissued hv (h.valid.find?_insert symbol v)

theorem Names.erase (h : t.Names i) (symbol : Symbol) : (t.erase symbol).2.Names i := by
  cases hfind : t.find? symbol with
  | none =>
    rw [erase_of_find?_eq_none hfind]
    exact h
  | some old =>
    obtain ⟨-, hvalid, hfind'⟩ := h.valid.erase_of_find?_eq_some hfind
    refine ⟨hvalid, fun k v hk => h.entries k v ?_⟩
    rw [hfind'] at hk
    by_cases heq : k = symbol
    · rw [if_pos heq] at hk
      exact absurd hk nofun
    · rwa [if_neg heq] at hk

theorem Names.merge (h : t.Names i) (hother : other.Names i) : (t.merge other).Names i := by
  have hentries : ∀ e ∈ other.entries, i.Issued e.1 ∧ ∃ x, e.2.Denotes i x := fun e he =>
    hother.entries e.1 e.2
      (hother.valid.find?_eq_some_iff.mpr ((mem_entries_iff _ _ _).mp he))
  rw [SymbolTable.merge]
  generalize other.entries = entries at hentries
  induction entries generalizing t with
  | nil => exact h
  | cons e entries ih =>
    obtain ⟨hissued, x, hx⟩ := hentries e List.mem_cons_self
    exact ih (h.insert hissued hx) fun e he => hentries e (List.mem_cons_of_mem _ he)

end SymbolTable

namespace World

variable {w : World} {j : Interner} {name other : String} {symbol : Symbol} {v : Value} {x : Datum}

/-! ### How worlds come about -/

theorem wellFormed_empty : empty.WellFormed := SymbolTable.names_empty _

/-- Interning more texts keeps a world in order. -/
theorem WellFormed.grow (h : w.WellFormed) (hj : w.interner.Grows j) :
    WellFormed { w with interner := j } := SymbolTable.Names.mono h hj

theorem WellFormed.intern (h : w.WellFormed) (text : String) : (w.intern text).2.WellFormed :=
  h.grow (w.interner.grows_intern text)

/-- Taking the value of a global away. -/
theorem WellFormed.erase (h : w.WellFormed) (symbol : Symbol) :
    WellFormed { w with globals := (w.globals.erase symbol).2 } := SymbolTable.Names.erase h symbol

/-- Importing globals of a table that belongs to the same interner. -/
theorem WellFormed.importGlobals (h : w.WellFormed) {t : SymbolTable Value}
    (ht : t.Names w.interner) : (w.importGlobals t).WellFormed := SymbolTable.Names.merge h ht

/-! ### Globals by names -/

theorem globalsByName_eq (hname : w.interner.find? name = some symbol) :
    w.globalsByName name = (w.globals.find? symbol).map (Value.datum w.interner) := by
  rw [globalsByName, hname, Option.bind_some]

/-- **Interning more texts changes no global.** A new text is the name of no global, since no global
is filed under its symbol. -/
theorem WellFormed.globalsByName_grow (h : w.WellFormed) (hj : w.interner.Grows j) :
    globalsByName { w with interner := j } = w.globalsByName := by
  funext name
  cases hname : w.interner.find? name with
  | some symbol =>
    rw [globalsByName_eq hname, globalsByName_eq (w := { w with interner := j }) (hj _ _ hname)]
    cases hfind : w.globals.find? symbol with
    | none => rfl
    | some v =>
      obtain ⟨-, x, hx⟩ := h.entries symbol v hfind
      rw [Option.map_some, Option.map_some, hx.datum_eq, (hx.mono hj).datum_eq]
  | none =>
    have hold : w.globalsByName name = none := by rw [globalsByName, hname, Option.bind_none]
    rw [hold]
    cases hnew : j.find? name with
    | none =>
      show (j.find? name).bind _ = none
      rw [hnew, Option.bind_none]
    | some symbol =>
      rw [globalsByName_eq (w := { w with interner := j }) hnew]
      cases hfind : w.globals.find? symbol with
      | none => rfl
      | some v =>
        obtain ⟨⟨text, htext⟩, -⟩ := h.entries symbol v hfind
        have heq := Interner.find?_inj (hj _ _ htext) hnew
        rw [heq, hname] at htext
        exact absurd htext nofun

/-- Filing a global under its symbol gives it a value by its name. -/
theorem globalsByName_of_find? {t : SymbolTable Value}
    (hname : w.interner.find? name = some symbol) (hv : v.Denotes w.interner x)
    (hfind : ∀ k, t.find? k = if k = symbol then some v else w.globals.find? k) :
    globalsByName { w with globals := t } = Function.update w.globalsByName name (some x) := by
  funext other
  show (w.interner.find? other).bind (fun symbol => (t.find? symbol).map _) = _
  by_cases heq : other = name
  · rw [heq, Function.update_self, hname, Option.bind_some, hfind, if_pos rfl, Option.map_some,
      hv.datum_eq]
  · rw [Function.update_of_ne heq, globalsByName]
    cases hother : w.interner.find? other with
    | none => rfl
    | some symbol' =>
      have hne : symbol' ≠ symbol := by
        rintro rfl
        exact heq (Interner.find?_inj hother hname)
      rw [Option.bind_some, Option.bind_some, hfind, if_neg hne]

theorem WellFormed.insert (h : w.WellFormed) (hname : w.interner.find? name = some symbol)
    (hv : v.Denotes w.interner x) :
    WellFormed { w with globals := (w.globals.insert symbol v).2 } :=
  SymbolTable.Names.insert h ⟨name, hname⟩ hv

theorem WellFormed.globalsByName_insert (h : w.WellFormed)
    (hname : w.interner.find? name = some symbol) (hv : v.Denotes w.interner x) :
    globalsByName { w with globals := (w.globals.insert symbol v).2 } =
      Function.update w.globalsByName name (some x) :=
  globalsByName_of_find? hname hv (h.valid.find?_insert symbol v)

/-- Replacing the value of a global, if it has one. -/
theorem WellFormed.replace (h : w.WellFormed) (hname : w.interner.find? name = some symbol)
    (hv : v.Denotes w.interner x) :
    (w.globalsByName name = none ∧ w.globals.replace symbol v = (none, w.globals)) ∨
      (w.globalsByName name).isSome ∧ ∃ old t, w.globals.replace symbol v = (some old, t) ∧
        WellFormed { w with globals := t } ∧
        globalsByName { w with globals := t } = Function.update w.globalsByName name (some x) := by
  rw [globalsByName_eq hname]
  cases hfind : w.globals.find? symbol with
  | none => exact .inl ⟨rfl, SymbolTable.replace_of_find?_eq_none hfind⟩
  | some old =>
    obtain ⟨hold, hvalid, hfind'⟩ := h.valid.replace_of_find?_eq_some hfind v
    refine .inr ⟨rfl, old, (w.globals.replace symbol v).2, Prod.ext hold rfl, ?_, ?_⟩
    · exact SymbolTable.Names.of_find? h hvalid ⟨name, hname⟩ hv hfind'
    · exact globalsByName_of_find? hname hv hfind'

end World

end Lox
