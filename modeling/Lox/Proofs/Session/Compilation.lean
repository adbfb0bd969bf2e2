import Lox.Proofs.Lockstep.Alike
import Lox.Semantics.Session

/-!
# What compilations intern

A record of issues is complete if looking a text up finds the symbol that the record has for it, and
finds nothing if the record has none. Interning some texts and recording what is issued for them keeps
a record complete.

A compilation interns the same texts in every interner. What it leaves there is what interning them
one after the other leaves, so that it need not be looked into for what it has issued.

## Main definitions

* `Interner.Recorded`: a complete record of what an interner has issued.

## Main results

* `Interner.Recorded.internAll`: a record is kept complete.
* `interner_of_compile`: what a compilation leaves in an interner.
-/

namespace Lox

namespace Interner

variable {i : Interner} {text other : String} {symbol : Symbol}

/-! ### Interning in turn -/

theorem internAll_append (i : Interner) (texts more : List String) :
    i.internAll (texts ++ more) = ((i.internAll texts).1 ++ ((i.internAll texts).2.internAll more).1,
      ((i.internAll texts).2.internAll more).2) := by
  induction texts generalizing i with
  | nil => rfl
  | cons text texts ih =>
    rw [List.cons_append, internAll, ih]
    rfl

theorem internAll_singleton (i : Interner) (text : String) :
    i.internAll [text] = ([⟨(i.intern text).1, text⟩], (i.intern text).2) := rfl

theorem grows_internAll (i : Interner) (texts : List String) : i.Grows (i.internAll texts).2 := by
  induction texts generalizing i with
  | nil => exact .refl i
  | cons text texts ih => exact (i.grows_intern text).trans (ih _)

/-- A text that has been interned has a symbol. -/
theorem exists_find?_internAll {texts : List String} (h : text ∈ texts) :
    ∃ symbol, (i.internAll texts).2.find? text = some symbol := by
  induction texts generalizing i with
  | nil => exact absurd h nofun
  | cons first texts ih =>
    rcases List.mem_cons.mp h with rfl | hmem
    · exact ⟨_, grows_internAll _ texts _ _ (i.find?_intern text)⟩
    · exact ih hmem

/-- The texts that are found in an interner are those it holds. -/
theorem isSome_find?_iff : (i.find? text).isSome ↔ text ∈ i.texts.toList := by
  rw [find?, Option.isSome_map, Array.findIdx?_isSome, Array.any_eq_true', Array.mem_toList_iff]
  constructor
  · rintro ⟨other, hother, heq⟩
    exact eq_of_beq heq ▸ hother
  · exact fun h => ⟨text, h, beq_self_eq_true text⟩

theorem mem_texts_of_find? (h : i.find? text = some symbol) : text ∈ i.texts.toList :=
  isSome_find?_iff.mp (by rw [h]; rfl)

/-- **Interning what another interner holds** after a text follows on what it holds before. -/
theorem internAll_texts_intern (i j : Interner) (text : String) :
    (i.internAll (j.intern text).2.texts.toList).2 =
      ((i.internAll j.texts.toList).2.intern text).2 := by
  cases hfind : j.find? text with
  | some symbol =>
    obtain ⟨symbol', hsymbol'⟩ := exists_find?_internAll (i := i) (mem_texts_of_find? hfind)
    rw [intern_of_find?_some hfind, intern_of_find?_some hsymbol']
  | none =>
    rw [intern_of_find?_none hfind, Array.toList_push, internAll_append, internAll_singleton]

/-! ### Records -/

/-- What is found after a text has been interned is what was found before, and its symbol. -/
theorem find?_intern_eq_some_iff : (i.intern text).2.find? other = some symbol ↔
    i.find? other = some symbol ∨ other = text ∧ symbol = (i.intern text).1 := by
  constructor
  · intro h
    cases hother : i.find? other with
    | some symbol' => exact .inl ((i.grows_intern text _ _ hother).symm.trans h)
    | none =>
      have hold : other ∉ i.texts.toList := by
        rw [← isSome_find?_iff, hother]
        exact nofun
      have hnew := mem_texts_of_find? h
      -- The interner holds no new text but the one that is interned.
      have heq : other = text := by
        cases hfind : i.find? text with
        | some symbol' =>
          rw [intern_of_find?_some hfind] at hnew
          exact absurd hnew hold
        | none =>
          rw [intern_of_find?_none hfind, Array.toList_push, List.mem_append,
            List.mem_singleton] at hnew
          exact hnew.resolve_left hold
      subst heq
      exact .inr ⟨rfl, Option.some.inj (h.symm.trans (i.find?_intern other))⟩
  · rintro (h | ⟨rfl, rfl⟩)
    · exact i.grows_intern text _ _ h
    · exact i.find?_intern other

/-- The record has all that the interner has issued, and nothing else. -/
def Recorded (i : Interner) (issued : List Issue) : Prop :=
  ∀ text symbol, i.find? text = some symbol ↔ ⟨symbol, text⟩ ∈ issued

theorem recorded_empty : empty.Recorded [] := fun _ _ =>
  iff_of_false (fun h => absurd (mem_texts_of_find? h) List.not_mem_nil) List.not_mem_nil

theorem Recorded.internAll {issued : List Issue} (h : i.Recorded issued) (texts : List String) :
    (i.internAll texts).2.Recorded (issued ++ (i.internAll texts).1) := by
  induction texts generalizing i issued with
  | nil => rwa [Interner.internAll, List.append_nil]
  | cons text texts ih =>
    have hfirst : (i.intern text).2.Recorded (issued ++ [⟨(i.intern text).1, text⟩]) := by
      intro other symbol
      rw [find?_intern_eq_some_iff, h, List.mem_append, List.mem_singleton, Issue.mk.injEq,
        and_comm (a := other = text)]
    have hrest := ih hfirst
    rwa [List.append_assoc] at hrest

/-- A symbol on record stands for its text. -/
theorem Recorded.text_eq {issued : List Issue} (h : i.Recorded issued) {a : Issue}
    (ha : a ∈ issued) : i.text a.symbol = a.text := text_of_find? ((h a.text a.symbol).mpr ha)

end Interner

/-! ### Compilations -/

namespace Draft

variable {i : Interner} {d d' : Draft}

theorem interner_addConstant (d : Draft) (value : Value) :
    (d.addConstant value).2.interner = d.interner := by
  obtain ⟨constants, panicking, diagnostics, heq⟩ := exists_addConstant_eq d value
  rw [heq]

theorem interner_report (d : Draft) (t : Token) (problem : Problem) :
    (d.report t problem).interner = d.interner := by
  obtain ⟨diagnostics, heq, -⟩ := exists_report_eq d t problem
  rw [heq]

theorem interner_advance (d : Draft) : d.advance.interner = d.interner := by
  obtain ⟨rest, panicking, diagnostics, heq, -⟩ := exists_advance_eq (d := d)
  rw [heq]

theorem interner_start (source : String) (maxLocals : Nat) (i : Interner) :
    (start source maxLocals i).interner = i := by
  obtain ⟨ahead, panicking, diagnostics, heq, -⟩ := exists_start_eq source maxLocals i
  rw [heq, blank]

/-- Two drafts that are alike, the interner of the second being what interning the texts of the first
leaves of a given one. -/
structure Echoes (i : Interner) (d d' : Draft) : Prop where
  alike : Alike Eq d d'
  interner : d'.interner = (i.internAll d.interner.texts.toList).2

/-- **Compiling keeps the echo.** -/
theorem parallel_echoes (i : Interner) : Parallel (Echoes i) := by
  have halike : Parallel (Alike Eq) := parallel_alike (by rintro _ _ rfl; exact ⟨rfl, rfl⟩)
  have hsame : ∀ {d d' e e' : Draft}, Echoes i d d' → Alike Eq e e' → e.interner = d.interner →
      e'.interner = d'.interner → Echoes i e e' := by
    intro d d' e e' h he hinterner hinterner'
    exact ⟨he, by rw [hinterner, hinterner', h.interner]⟩
  exact {
    last := fun h => halike.last h.alike
    previous := fun h => halike.previous h.alike
    current := fun h => halike.current h.alike
    ahead := fun h => halike.ahead h.alike
    panicking := fun h => halike.panicking h.alike
    stalled := fun h => halike.stalled h.alike
    scope := fun h => halike.scope h.alike
    size := fun h => halike.size h.alike
    advance := fun h => hsame h (halike.advance h.alike) (interner_advance _) (interner_advance _)
    failAtPrevious := fun problem h => hsame h (halike.failAtPrevious problem h.alike)
      (interner_report ..) (interner_report ..)
    failAtCurrent := fun problem h => hsame h (halike.failAtCurrent problem h.alike)
      (interner_report ..) (interner_report ..)
    emitByte := fun byte h => hsame h (halike.emitByte byte h.alike) rfl rfl
    patch := fun offset distance h => hsame h (halike.patch offset distance h.alike) rfl rfl
    stringConstant := fun text h => ⟨(halike.stringConstant text h.alike).1,
      (halike.stringConstant text h.alike).2, by
        rw [interner_stringConstant, interner_stringConstant, h.interner,
          Interner.internAll_texts_intern]⟩
    number := fun value h => ⟨(halike.number value h.alike).1,
      hsame h (halike.number value h.alike).2 (interner_addConstant ..) (interner_addConstant ..)⟩
    setPanicking := fun panicking h => hsame h (halike.setPanicking panicking h.alike) rfl rfl
    stall := fun h => hsame h (halike.stall h.alike) rfl rfl
    setScope := fun scope h => hsame h (halike.setScope scope h.alike) rfl rfl }

theorem echoes_source (limits : Limits) (i : Interner) (source : String) :
    Echoes i (ofSource limits .empty source) (ofSource limits i source) := by
  refine (parallel_echoes i).source ⟨alike_start (by rintro _ _ rfl; exact ⟨rfl, rfl⟩) rfl rfl
    (List.forall₂_eq_eq_eq ▸ rfl) limits.locals .empty i, ?_⟩
  rw [interner_start, interner_start]
  rfl

end Draft

section Compile

variable {limits : Limits} {i : Interner} {source : String} {c : Compilation}

/-- **What a compilation leaves in an interner** is what interning its texts in turn leaves there. -/
theorem interner_of_compile (h : compile limits i source = some c) :
    c.interner = (i.internAll (compiledTexts limits source)).2 := by
  have hechoes := Draft.echoes_source limits i source
  rw [compile] at h
  by_cases hnever : (Draft.ofSource limits i source).stalled = true
  · rw [if_pos hnever] at h
    contradiction
  · rw [if_neg hnever] at h
    rw [← hechoes.alike.stalled] at hnever
    rw [← Option.some.inj h, compiledTexts, compile, if_neg hnever]
    exact hechoes.interner

/-- The constants of a compilation, even of one that reports something, stand for data. -/
theorem denotes_of_compile (h : compile limits i source = some c) :
    ∀ v ∈ c.chunk.constants, ∃ x, v.Denotes c.interner x := by
  obtain ⟨pool, -, hpool⟩ := (Draft.echoes_source limits i source).alike.pool
  rw [compile] at h
  split at h
  · contradiction
  · obtain rfl := Option.some.inj h
    intro v hv
    obtain ⟨k, hk, hget⟩ := List.getElem_of_mem (Array.mem_toList_iff.mpr hv)
    exact hget ▸ ⟨_, hpool.constants.get _ (hpool.constants.length_eq ▸ hk)⟩

end Compile

end Lox
