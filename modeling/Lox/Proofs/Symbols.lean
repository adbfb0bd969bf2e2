import Lox.Semantics.Datum

/-!
# Symbols and the values that hold them

An interner never forgets a text: the symbol that a text has stays its symbol, and a new symbol is
none of those issued before. A value denotes a datum under an interner, and still does under every
interner that has grown from it.

## Main definitions

* `Interner.Grows`: one interner has grown from another.
* `Interner.Issued`: a symbol stands for a stored text.
* `Value.Denotes`: a value stands for a datum.

## Main results

* `Interner.grows_intern`, `Interner.find?_intern`: what interning does.
* `Value.Denotes.equals_eq`, `Value.Denotes.display_eq`: what programs see of a value is what they
  see of the datum.
-/

namespace Lox

namespace Interner

variable {i j k : Interner} {text other : String} {symbol : Symbol}

/-- Every text keeps its symbol. -/
def Grows (i j : Interner) : Prop := ∀ text symbol, i.find? text = some symbol →
  j.find? text = some symbol

/-- The symbol stands for a stored text. -/
def Issued (i : Interner) (symbol : Symbol) : Prop := ∃ text, i.find? text = some symbol

theorem Grows.refl (i : Interner) : i.Grows i := fun _ _ => id

theorem Grows.trans (hij : i.Grows j) (hjk : j.Grows k) : i.Grows k :=
  fun text symbol h => hjk text symbol (hij text symbol h)

theorem Issued.mono (hij : i.Grows j) (h : i.Issued symbol) : j.Issued symbol :=
  h.imp fun text => hij text symbol

/-! ### Texts of symbols -/

/-- A symbol has the index of its text and its hash. -/
theorem find?_eq_some_iff :
    i.find? text = some symbol ↔
      i.texts.findIdx? (· == text) = some symbol.index ∧ textHash text = symbol.hash := by
  obtain ⟨index, hash⟩ := symbol
  rw [find?, Option.map_eq_some_iff]
  constructor
  · rintro ⟨n, hn, heq⟩
    obtain ⟨rfl, rfl⟩ := Symbol.mk.inj heq
    exact ⟨hn, rfl⟩
  · rintro ⟨hn, hhash⟩
    exact ⟨index, hn, by rw [hhash]⟩

theorem getElem?_of_find? (h : i.find? text = some symbol) :
    i.texts[symbol.index]? = some text := by
  obtain ⟨hlt, heq, -⟩ := Array.findIdx?_eq_some_iff_getElem.mp (find?_eq_some_iff.mp h).1
  rw [Array.getElem?_eq_getElem hlt, eq_of_beq heq]

theorem text_of_find? (h : i.find? text = some symbol) : i.text symbol = text := by
  rw [Interner.text, Array.getD_eq_getD_getElem?, getElem?_of_find? h, Option.getD_some]

/-- A symbol stands for one text only. -/
theorem find?_inj (h : i.find? text = some symbol) (h' : i.find? other = some symbol) :
    text = other := (text_of_find? h).symm.trans (text_of_find? h')

theorem Issued.find?_text (h : i.Issued symbol) : i.find? (i.text symbol) = some symbol := by
  obtain ⟨text, htext⟩ := h
  rwa [text_of_find? htext]

/-- A symbol keeps its text. -/
theorem Grows.text_eq (hij : i.Grows j) (h : i.Issued symbol) : j.text symbol = i.text symbol :=
  text_of_find? (hij _ _ h.find?_text)

/-! ### Interning -/

theorem intern_of_find?_some (h : i.find? text = some symbol) : i.intern text = (symbol, i) := by
  rw [intern, h]

theorem intern_of_find?_none (h : i.find? text = none) :
    i.intern text = (⟨i.size, textHash text⟩, ⟨i.texts.push text⟩) := by
  rw [intern, h]

theorem grows_intern (i : Interner) (text : String) : i.Grows (i.intern text).2 := by
  cases hfind : i.find? text with
  | some symbol =>
    rw [intern_of_find?_some hfind]
    exact .refl i
  | none =>
    rw [intern_of_find?_none hfind]
    intro other symbol h
    obtain ⟨hindex, hhash⟩ := find?_eq_some_iff.mp h
    refine find?_eq_some_iff.mpr ⟨?_, hhash⟩
    rw [Array.findIdx?_push, hindex, Option.some_or]

/-- After interning a text has the symbol that interning has answered. -/
theorem find?_intern (i : Interner) (text : String) :
    (i.intern text).2.find? text = some (i.intern text).1 := by
  cases hfind : i.find? text with
  | some symbol => rw [intern_of_find?_some hfind, hfind]
  | none =>
    rw [intern_of_find?_none hfind]
    have habsent : i.texts.findIdx? (· == text) = none := by
      rwa [find?, Option.map_eq_none_iff] at hfind
    refine find?_eq_some_iff.mpr ⟨?_, rfl⟩
    rw [Array.findIdx?_push, habsent]
    simp [size]

/-- The symbol of a new text is not one of those issued before. -/
theorem not_issued_intern (h : i.find? text = none) : ¬i.Issued (i.intern text).1 := by
  rintro ⟨other, hother⟩
  have hget := getElem?_of_find? hother
  rw [intern_of_find?_none h] at hget
  simp [size] at hget

end Interner

namespace Value

variable {i j : Interner} {v w : Value} {x y : Datum}

/-- The value stands for the datum: a string for the text of its symbol, and any other value for
itself. -/
inductive Denotes (i : Interner) : Value → Datum → Prop where
  | nil : Denotes i .nil .nil
  | bool (b : Bool) : Denotes i (.bool b) (.bool b)
  | number (n : Float) : Denotes i (.number n) (.number n)
  | text {symbol : Symbol} {text : String} (find? : i.find? text = some symbol) :
      Denotes i (.string symbol) (.text text)

theorem Denotes.mono (hij : i.Grows j) (h : Denotes i v x) : Denotes j v x := by
  cases h with
  | nil => exact .nil
  | bool b => exact .bool b
  | number n => exact .number n
  | text hfind => exact .text (hij _ _ hfind)

theorem Denotes.datum_eq (h : Denotes i v x) : v.datum i = x := by
  cases h with
  | nil | bool | number => rfl
  | text hfind => exact congrArg Datum.text (Interner.text_of_find? hfind)

/-- A string stands for the text of its symbol. -/
theorem denotes_intern (i : Interner) (text : String) :
    Denotes (i.intern text).2 (.string (i.intern text).1) (.text text) :=
  .text (i.find?_intern text)

theorem Denotes.isFalsey_eq (h : Denotes i v x) : v.isFalsey = x.isFalsey := by
  cases h <;> rfl

/-- Programs see values as equal when they see the data as equal: two strings have one symbol
exactly when they have one text. -/
theorem Denotes.equals_eq (hv : Denotes i v x) (hw : Denotes i w y) :
    v.equals w = x.equals y := by
  cases hv with
  | text hfind =>
    cases hw with
    | text hfind' =>
      rename_i s t s' t'
      rw [equals, Datum.equals, Bool.eq_iff_iff, beq_iff_eq, beq_iff_eq]
      constructor
      · rintro rfl
        exact Interner.find?_inj hfind hfind'
      · rintro rfl
        exact Option.some.inj (hfind.symm.trans hfind')
    | nil | bool | number => rfl
  | nil | bool | number => cases hw <;> rfl

theorem Denotes.display_eq (h : Denotes i v x) : v.display i = x.display := by
  cases h with
  | nil | bool | number => rfl
  | text hfind => exact Interner.text_of_find? hfind

end Value

end Lox
