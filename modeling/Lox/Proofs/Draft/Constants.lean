import Lox.Proofs.Draft.Invariants
import Lox.Proofs.Pools
import Lox.Proofs.SymbolTable.Contents
import Lox.Proofs.Symbols

/-!
# The constants of a draft

A draft keeps its constants as values, and beside them a table that finds the index of a string.
`HasPool` says that both agree with a pool, in which strings are texts.

## Main definitions

* `Draft.HasPool`: the constants of the draft are those of a pool.

## Main results

* `HasPool.stringConstant_eq`, `HasPool.emitConstant_eq`: adding a constant that fits.
* `Proper.stringConstant_not_clean`, `Proper.emitConstant_not_clean`: one that does not.
-/

namespace Lox

namespace Draft

variable {d : Draft} {pool : Pool}

/-- The constants of the draft are those of the pool, and strings are found by their symbols. -/
structure HasPool (d : Draft) (pool : Pool) : Prop where
  /-- Constants and pool agree, place by place. -/
  constants : List.Forall₂ (Value.Denotes d.interner) d.chunk.constants.toList pool
  /-- The table finds the texts of the pool, and nothing else. -/
  strings : ∀ symbol index, d.strings.find? symbol = some index ↔
    ∃ text, d.interner.find? text = some symbol ∧ .text text ∈ pool ∧
      index = UInt8.ofNat (pool.indexOf text)
  table : d.strings.Valid
  /-- Every index fits into an operand. -/
  bound : pool.length ≤ maxConstants

theorem HasPool.size_constants (h : d.HasPool pool) : d.chunk.constants.size = pool.length := by
  rw [← Array.length_toList, h.constants.length_eq]

/-- Only the interner, the constants and the table of strings have a part in it. -/
theorem HasPool.of_eq {d' : Draft} (h : d.HasPool pool) (hinterner : d'.interner = d.interner)
    (hconstants : d'.chunk.constants = d.chunk.constants) (hstrings : d'.strings = d.strings) :
    d'.HasPool pool where
  constants := hinterner ▸ hconstants ▸ h.constants
  strings := by
    rw [hinterner, hstrings]
    exact h.strings
  table := hstrings ▸ h.table
  bound := h.bound

/-- The pool is what the constants stand for. -/
theorem HasPool.map_datum (h : d.HasPool pool) :
    d.chunk.constants.toList.map (Value.datum d.interner) = pool := by
  have hdata := h.constants.imp fun _ _ hdenotes => hdenotes.datum_eq
  rwa [← List.forall₂_map_left_iff, List.forall₂_eq_eq_eq] at hdata

/-- Each text of the pool has a symbol. -/
theorem HasPool.exists_symbol (h : d.HasPool pool) {text : String} (hmem : .text text ∈ pool) :
    ∃ symbol, d.interner.find? text = some symbol := by
  obtain ⟨i, hlt, hget⟩ := List.mem_iff_getElem.mp hmem
  have hlt' : i < d.chunk.constants.toList.length := h.constants.length_eq ▸ hlt
  have hdenotes := h.constants.get hlt' hlt
  rw [List.get_eq_getElem, List.get_eq_getElem, hget] at hdenotes
  generalize d.chunk.constants.toList[i] = v at hdenotes
  cases hdenotes with
  | text hfind => exact ⟨_, hfind⟩

/-! ### The interner -/

theorem Step.grows {d' : Draft} (h : Step true d d') : d.interner.Grows d'.interner := by
  cases h with
  | intern text => exact Interner.grows_intern _ text
  | report t problem =>
    rw [Draft.report]
    split <;> exact .refl _
  | advance =>
    obtain ⟨rest, panicking, diagnostics, heq, -⟩ := exists_advance_eq d
    rw [heq]
    exact .refl _
  | calm | stall | write | patch | constant | remember | scope => exact .refl _

/-- Compiling forgets no text. -/
theorem Steps.grows {d' : Draft} (h : Steps true d d') : d.interner.Grows d'.interner := by
  induction h with
  | refl => exact .refl _
  | tail _ hstep ih => exact ih.trans hstep.grows

/-! ### Adding a constant -/

/-- Interning a text changes nothing about the constants. -/
theorem HasPool.intern (h : d.HasPool pool) (text : String) :
    HasPool { d with interner := (d.interner.intern text).2 } pool where
  constants := h.constants.imp fun _ _ => Value.Denotes.mono (Interner.grows_intern _ _)
  strings := by
    intro symbol index
    have hgrows := Interner.grows_intern d.interner text
    rw [h.strings]
    constructor
    · rintro ⟨other, hfind, hmem, hindex⟩
      exact ⟨other, hgrows _ _ hfind, hmem, hindex⟩
    · rintro ⟨other, hfind, hmem, hindex⟩
      obtain ⟨symbol', hfind'⟩ := h.exists_symbol hmem
      obtain rfl : symbol' = symbol := Option.some.inj ((hgrows _ _ hfind').symm.trans hfind)
      exact ⟨other, hfind', hmem, hindex⟩
  table := h.table
  bound := h.bound

/-- Where there is room a constant gets the next index. -/
theorem HasPool.addConstant_eq (h : d.HasPool pool) (hroom : pool.length < maxConstants)
    (value : Value) :
    d.addConstant value = (some (UInt8.ofNat pool.length),
      { d with chunk := d.chunk.addConstant value }) := by
  rw [addConstant, h.size_constants]
  exact if_pos hroom

/-- A constant that is not a string needs no entry in the table. -/
theorem HasPool.push (h : d.HasPool pool) (hroom : pool.length < maxConstants) {value : Value}
    {x : Datum} (hdenotes : value.Denotes d.interner x) (htext : x.text? = none) :
    HasPool { d with chunk := d.chunk.addConstant value } (pool.add x) where
  constants := by
    rw [Pool.add_of_text?_eq_none htext]
    show List.Forall₂ _ (d.chunk.constants.push value).toList _
    rw [Array.toList_push]
    exact List.rel_append h.constants (.cons hdenotes .nil)
  strings := by
    intro symbol index
    have hmem : ∀ text, .text text ∈ pool.add x ↔ .text text ∈ pool := by
      intro text
      rw [Pool.mem_add_iff, or_iff_left]
      rintro rfl
      simp [Datum.text?] at htext
    rw [h.strings]
    refine exists_congr fun text => and_congr_right fun _ => ?_
    rw [hmem]
    refine and_congr_right fun htextMem => ?_
    rw [Pool.indexOf_of_prefix (Pool.prefix_add pool x) htextMem]
  table := h.table
  bound := by
    rw [Pool.add_of_text?_eq_none htext, List.length_append]
    exact hroom

/-- A string goes into the pool and into the table. -/
theorem HasPool.push_string (h : d.HasPool pool) (hroom : pool.length < maxConstants)
    {symbol : Symbol} {text : String} (hfind : d.interner.find? text = some symbol)
    (habsent : .text text ∉ pool) :
    HasPool { d with
      chunk := d.chunk.addConstant (.string symbol)
      strings := (d.strings.insert symbol (UInt8.ofNat pool.length)).2 }
      (pool.add (.text text)) where
  constants := by
    rw [Pool.add_text_of_not_mem habsent]
    show List.Forall₂ _ (d.chunk.constants.push (.string symbol)).toList _
    rw [Array.toList_push]
    exact List.rel_append h.constants (.cons (.text hfind) .nil)
  strings := by
    intro other index
    show (d.strings.insert symbol (UInt8.ofNat pool.length)).2.find? other = _ ↔ _
    rw [h.table.find?_insert]
    by_cases hother : other = symbol
    · subst hother
      rw [if_pos rfl, Option.some.injEq]
      constructor
      · rintro rfl
        refine ⟨text, hfind, Pool.mem_add_text pool text, ?_⟩
        rw [Pool.indexOf_add_text, Pool.indexOf_of_not_mem habsent]
      · rintro ⟨text', hfind', -, rfl⟩
        rw [Interner.find?_inj hfind' hfind, Pool.indexOf_add_text,
          Pool.indexOf_of_not_mem habsent]
    · rw [if_neg hother, h.strings]
      refine exists_congr fun text' => and_congr_right fun hfind' => ?_
      have hne : text' ≠ text := by
        rintro rfl
        exact hother (Option.some.inj (hfind'.symm.trans hfind))
      rw [Pool.mem_add_iff, or_iff_left fun heq => hne (Datum.text.inj heq).symm]
      refine and_congr_right fun hmem => ?_
      rw [Pool.indexOf_of_prefix (Pool.prefix_add pool _) hmem]
  table := h.table.insert _ _
  bound := by
    rw [Pool.add_text_of_not_mem habsent, List.length_append]
    exact hroom

/-- **Adding a string that fits.** Its index is that of its text in the pool. -/
theorem HasPool.stringConstant_eq (h : d.HasPool pool) (text : String)
    (hfits : (pool.add (.text text)).length ≤ maxConstants) :
    ∃ interner strings constants,
      d.stringConstant text = (UInt8.ofNat (pool.indexOf text),
        { d with interner, strings, chunk := { d.chunk with constants } }) ∧
      HasPool { d with interner, strings, chunk := { d.chunk with constants } }
        (pool.add (.text text)) := by
  have hfind := d.interner.find?_intern text
  have hpool := h.intern text
  by_cases hmem : .text text ∈ pool
  · have htable : d.strings.find? (d.interner.intern text).1 =
        some (UInt8.ofNat (pool.indexOf text)) := (hpool.strings _ _).mpr ⟨text, hfind, hmem, rfl⟩
    refine ⟨(d.interner.intern text).2, d.strings, d.chunk.constants, ?_, ?_⟩
    · rw [stringConstant]
      simp only [htable]
    · rw [Pool.add_text_of_mem hmem]
      exact hpool
  · have htable : d.strings.find? (d.interner.intern text).1 = none := by
      rw [Option.eq_none_iff_forall_ne_some]
      intro index hindex
      obtain ⟨other, hother, hotherMem, -⟩ := (hpool.strings _ _).mp hindex
      exact hmem (Interner.find?_inj hother hfind ▸ hotherMem)
    have hroom : pool.length < maxConstants := by
      rw [Pool.add_text_of_not_mem hmem, List.length_append] at hfits
      exact hfits
    refine ⟨(d.interner.intern text).2, _, _, ?_, hpool.push_string hroom hfind hmem⟩
    rw [stringConstant]
    simp only [htable]
    rw [hpool.addConstant_eq hroom, Pool.indexOf_of_not_mem hmem]
    rfl

/-- Where there is no room a constant is reported. -/
theorem HasPool.addConstant_full (h : d.HasPool pool) (hfull : ¬pool.length < maxConstants)
    (value : Value) : d.addConstant value = (none, d.failAtPrevious .tooManyConstants) := by
  rw [addConstant, h.size_constants]
  exact if_neg hfull

/-- **Adding a string that does not fit.** It is interned all the same. -/
theorem HasPool.stringConstant_full (h : d.HasPool pool) (text : String)
    (hfull : ¬(pool.add (.text text)).length ≤ maxConstants) :
    d.stringConstant text = (0,
      ({ d with interner := (d.interner.intern text).2 } : Draft).failAtPrevious
        .tooManyConstants) := by
  have hpool := h.intern text
  have hmem : .text text ∉ pool := by
    intro hmem
    rw [Pool.add_text_of_mem hmem] at hfull
    exact hfull h.bound
  have htable : d.strings.find? (d.interner.intern text).1 = none := by
    rw [Option.eq_none_iff_forall_ne_some]
    intro index hindex
    obtain ⟨other, hother, hotherMem, -⟩ := (hpool.strings _ _).mp hindex
    exact hmem (Interner.find?_inj hother (d.interner.find?_intern text) ▸ hotherMem)
  have hsize : ¬pool.length < maxConstants := by
    rw [Pool.add_text_of_not_mem hmem, List.length_append] at hfull
    exact hfull
  rw [stringConstant]
  simp only [htable]
  rw [hpool.addConstant_full hsize]

/-- **Adding a string that does not fit** is reported. -/
theorem Proper.stringConstant_not_clean (hproper : d.Proper) (h : d.HasPool pool) (text : String)
    (hfull : ¬(pool.add (.text text)).length ≤ maxConstants) :
    ¬(d.stringConstant text).2.Clean := by
  rw [h.stringConstant_full text hfull]
  exact (((Step.intern d text).proper hproper).report _ _).2

/-! ### Writing constants -/

/-- **Writing a constant that fits.** -/
theorem HasPool.emitConstant_eq (h : d.HasPool pool) (hroom : pool.length < maxConstants)
    (value : Value) :
    d.emitConstant value =
      ({ d with chunk := d.chunk.addConstant value } : Draft).emitOpByte .constant
        (UInt8.ofNat pool.length) := by
  rw [emitConstant, h.addConstant_eq hroom]
  rfl

/-- **Writing a constant that does not fit** is reported. -/
theorem Proper.emitConstant_not_clean (hproper : d.Proper) (h : d.HasPool pool)
    (hfull : ¬pool.length < maxConstants) (value : Value) : ¬(d.emitConstant value).Clean := by
  rw [emitConstant, h.addConstant_full hfull]
  exact (hproper.report _ _).2

end Draft

end Lox
