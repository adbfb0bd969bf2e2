import Lox.Proofs.Acceptance
import Lox.Proofs.Lockstep.Statement

/-!
# Compilations that are alike

What a source compiles to depends on the kinds and texts of its tokens only, apart from the places
that the diagnostics and the line table name. It does not depend on what has been interned before:
symbols differ from one interner to another, but two symbols of one interner are equal exactly when
their texts are.

## Main definitions

* `Draft.Alike`: two drafts of the same tokens, with constants that stand for the same data.
* `Compilation.Alike`: two compilations with nothing but symbols and places between them.

## Main results

* `Draft.parallel_alike`: compiling keeps drafts alike.
* `compile_alike`: sources with the same tokens compile alike, under any interners.
* `World.compile_eq_in_new_world`: compiling gives the same in every world.
-/

namespace Lox

/-- A relation between tokens that differ in their places at most. -/
def Token.Places (T : Token → Token → Prop) : Prop :=
  ∀ t t', T t t' → t.kind = t'.kind ∧ t.lexeme = t'.lexeme

/-- The same problem at related tokens. -/
def Diagnostic.Related (T : Token → Token → Prop) (x x' : Diagnostic) : Prop :=
  ∃ t t' problem, T t t' ∧ x = .ofToken t problem ∧ x' = .ofToken t' problem

/-- The lines of related tokens. -/
def LinesRelated (T : Token → Token → Prop) (line line' : Nat) : Prop :=
  ∃ t t', T t t' ∧ line = t.line ∧ line' = t'.line

/-- The relation between compilations whose tokens are related: the same code, and constants that
stand for the same data. -/
structure Compilation.Alike (T : Token → Token → Prop) (c c' : Compilation) : Prop where
  code : c.chunk.code = c'.chunk.code
  lines : List.Forall₂ (LinesRelated T) c.chunk.lines.toList c'.chunk.lines.toList
  diagnostics : List.Forall₂ (Diagnostic.Related T) c.diagnostics.toList c'.diagnostics.toList
  constants : c.chunk.constants.map (Value.datum c.interner) =
    c'.chunk.constants.map (Value.datum c'.interner)

namespace Draft

/-- Two drafts with related tokens and otherwise alike, but for their symbols. -/
structure Alike (T : Token → Token → Prop) (d d' : Draft) : Prop where
  previous : T d.previous d'.previous
  ahead : List.Forall₂ T d.ahead d'.ahead
  last : T d.last d'.last
  lastKind : d.last.kind = .endOfSource
  panicking : d.panicking = d'.panicking
  stalled : d.stalled = d'.stalled
  scope : d.scope = d'.scope
  code : d.chunk.code = d'.chunk.code
  lines : List.Forall₂ (LinesRelated T) d.chunk.lines.toList d'.chunk.lines.toList
  diagnostics : List.Forall₂ (Diagnostic.Related T) d.diagnostics.toList d'.diagnostics.toList
  pool : ∃ pool, d.HasPool pool ∧ d'.HasPool pool

variable {T : Token → Token → Prop} {d d' : Draft}

namespace Alike

theorem current (h : Alike T d d') : T d.current d'.current := by
  rw [Draft.current, Draft.current]
  have hahead := h.ahead
  generalize d.ahead = tokens at hahead ⊢
  generalize d'.ahead = tokens' at hahead ⊢
  cases hahead with
  | nil => exact h.last
  | cons ht _ => exact ht

/-- The pools are the same as long as nothing about them changes. -/
theorem pool_of_eq {e e' : Draft} (h : Alike T d d')
    (heq : e.interner = d.interner ∧ e.chunk.constants = d.chunk.constants ∧ e.strings = d.strings)
    (heq' : e'.interner = d'.interner ∧ e'.chunk.constants = d'.chunk.constants ∧
      e'.strings = d'.strings) : ∃ pool, e.HasPool pool ∧ e'.HasPool pool := by
  obtain ⟨pool, hpool, hpool'⟩ := h.pool
  exact ⟨pool, hpool.of_eq heq.1 heq.2.1 heq.2.2, hpool'.of_eq heq'.1 heq'.2.1 heq'.2.2⟩

/-! ### Reports and tokens -/

theorem report (h : Alike T d d') {t t' : Token} (ht : T t t') (problem : Problem) :
    Alike T (d.report t problem) (d'.report t' problem) := by
  rw [Draft.report, Draft.report, ← h.panicking]
  split
  · exact h
  · exact { h with
      panicking := rfl
      diagnostics := by
        rw [Array.toList_push, Array.toList_push]
        exact List.rel_append h.diagnostics (.cons ⟨t, t', problem, ht, rfl, rfl⟩ .nil)
      pool := h.pool_of_eq ⟨rfl, rfl, rfl⟩ ⟨rfl, rfl, rfl⟩ }

theorem comeTo (hT : Token.Places T) {tokens tokens' : List Token} (h : Alike T d d')
    (htokens : List.Forall₂ T tokens tokens') : Alike T (d.comeTo tokens) (d'.comeTo tokens') := by
  induction htokens generalizing d d' with
  | nil =>
    exact { h with ahead := .nil, pool := h.pool_of_eq ⟨rfl, rfl, rfl⟩ ⟨rfl, rfl, rfl⟩ }
  | @cons t t' tokens tokens' ht htokens ih =>
    rw [Draft.comeTo, Draft.comeTo, ← (hT t t' ht).1]
    split
    · exact ih (h.report ht _)
    · exact { h with
        ahead := .cons ht htokens
        pool := h.pool_of_eq ⟨rfl, rfl, rfl⟩ ⟨rfl, rfl, rfl⟩ }

theorem advance (hT : Token.Places T) (h : Alike T d d') : Alike T d.advance d'.advance := by
  have hpassed : Alike T { d with previous := d.current } { d' with previous := d'.current } :=
    { h with previous := h.current, pool := h.pool_of_eq ⟨rfl, rfl, rfl⟩ ⟨rfl, rfl, rfl⟩ }
  exact hpassed.comeTo hT (by simpa only [List.drop_one] using List.forall₂_drop 1 h.ahead)

/-! ### Constants -/

theorem stringConstant (h : Alike T d d') (text : String) :
    (d.stringConstant text).1 = (d'.stringConstant text).1 ∧
      Alike T (d.stringConstant text).2 (d'.stringConstant text).2 := by
  obtain ⟨pool, hpool, hpool'⟩ := h.pool
  by_cases hfits : (pool.add (.text text)).length ≤ maxConstants
  · obtain ⟨interner, strings, constants, heq, hafter⟩ := hpool.stringConstant_eq text hfits
    obtain ⟨interner', strings', constants', heq', hafter'⟩ := hpool'.stringConstant_eq text hfits
    rw [heq, heq']
    exact ⟨rfl, { h with pool := ⟨_, hafter, hafter'⟩ }⟩
  · rw [hpool.stringConstant_full text hfits, hpool'.stringConstant_full text hfits]
    have hinterned : Alike T { d with interner := (d.interner.intern text).2 }
        { d' with interner := (d'.interner.intern text).2 } :=
      { h with pool := ⟨pool, hpool.intern text, hpool'.intern text⟩ }
    exact ⟨rfl, hinterned.report h.previous _⟩

theorem number (h : Alike T d d') (value : Float) :
    (d.addConstant (.number value)).1 = (d'.addConstant (.number value)).1 ∧
      Alike T (d.addConstant (.number value)).2 (d'.addConstant (.number value)).2 := by
  obtain ⟨pool, hpool, hpool'⟩ := h.pool
  by_cases hroom : pool.length < maxConstants
  · rw [hpool.addConstant_eq hroom, hpool'.addConstant_eq hroom]
    exact ⟨rfl, { h with
      pool := ⟨_, hpool.push hroom (.number value) rfl, hpool'.push hroom (.number value) rfl⟩ }⟩
  · rw [hpool.addConstant_full hroom, hpool'.addConstant_full hroom]
    exact ⟨rfl, h.report h.previous _⟩

end Alike

/-- **Compiling keeps drafts alike.** -/
theorem parallel_alike (hT : Token.Places T) : Parallel (Alike T) where
  last h := ⟨h.lastKind, (hT _ _ h.last).1 ▸ h.lastKind⟩
  previous h := hT _ _ h.previous
  current h := (hT _ _ h.current).1
  ahead h := h.ahead.length_eq
  panicking h := h.panicking
  stalled h := h.stalled
  scope h := h.scope
  size h := congrArg Array.size h.code
  advance h := h.advance hT
  failAtPrevious problem h := h.report h.previous problem
  failAtCurrent problem h := h.report h.current problem
  emitByte byte h := { h with
    code := congrArg (Array.push · byte) h.code
    lines := by
      show List.Forall₂ _ (Array.push _ _).toList (Array.push _ _).toList
      rw [Array.toList_push, Array.toList_push]
      exact List.rel_append h.lines (.cons ⟨_, _, h.previous, rfl, rfl⟩ .nil)
    pool := h.pool_of_eq ⟨rfl, rfl, rfl⟩ ⟨rfl, rfl, rfl⟩ }
  patch offset distance h := { h with
    code := by simp only [Chunk.patch, h.code]
    pool := h.pool_of_eq ⟨rfl, rfl, rfl⟩ ⟨rfl, rfl, rfl⟩ }
  stringConstant text h := h.stringConstant text
  number value h := h.number value
  setPanicking panicking h := { h with
    panicking := rfl, pool := h.pool_of_eq ⟨rfl, rfl, rfl⟩ ⟨rfl, rfl, rfl⟩ }
  stall h := { h with stalled := rfl, pool := h.pool_of_eq ⟨rfl, rfl, rfl⟩ ⟨rfl, rfl, rfl⟩ }
  setScope scope h := { h with scope := rfl, pool := h.pool_of_eq ⟨rfl, rfl, rfl⟩ ⟨rfl, rfl, rfl⟩ }

/-- Sources with related tokens start alike. -/
theorem alike_start (hT : Token.Places T) {source source' : String}
    (hbegin : T (.atEnd 0 1) (.atEnd 0 1)) (hlast : T (scan source).last (scan source').last)
    (htokens : List.Forall₂ T (scan source).tokens (scan source').tokens) (maxLocals : Nat)
    (interner interner' : Interner) :
    Alike T (start source maxLocals interner) (start source' maxLocals interner') := by
  have hblank : Alike T (blank source maxLocals interner) (blank source' maxLocals interner') := {
    previous := hbegin
    ahead := .nil
    last := hlast
    lastKind := rfl
    panicking := rfl
    stalled := rfl
    scope := rfl
    code := rfl
    lines := .nil
    diagnostics := .nil
    pool := ⟨[], hasPool_blank .., hasPool_blank ..⟩ }
  exact hblank.comeTo hT htokens

end Draft

/-- **Sources with the same tokens compile alike**, wherever these stand and whatever has been
interned before: both for ever, or both to the same but for symbols and places. -/
theorem compile_alike {T : Token → Token → Prop} (hT : Token.Places T) {source source' : String}
    (hbegin : T (.atEnd 0 1) (.atEnd 0 1)) (hlast : T (scan source).last (scan source').last)
    (htokens : List.Forall₂ T (scan source).tokens (scan source').tokens) (limits : Limits)
    (interner interner' : Interner) :
    (compile limits interner source = none ∧ compile limits interner' source' = none) ∨
      ∃ c c', compile limits interner source = some c ∧ compile limits interner' source' = some c' ∧
        c.Alike T c' := by
  have hend := (Draft.parallel_alike hT).source (Draft.alike_start hT hbegin hlast htokens
    limits.locals interner interner')
  rw [compile, compile, ← hend.stalled]
  split
  · exact .inl ⟨rfl, rfl⟩
  · obtain ⟨pool, hpool, hpool'⟩ := hend.pool
    refine .inr ⟨_, _, rfl, rfl, hend.code, hend.lines, hend.diagnostics, ?_⟩
    rw [← Array.toList_inj, Array.toList_map, Array.toList_map, hpool.map_datum, hpool'.map_datum]

/-! ### Worlds -/

/-- Related by equality, compilations have the same lines and diagnostics. -/
theorem Compilation.Alike.eq {c c' : Compilation} (h : c.Alike Eq c') :
    c.chunk.lines = c'.chunk.lines ∧ c.diagnostics = c'.diagnostics := by
  have hlines := h.lines.imp (S := Eq) (by
    rintro _ _ ⟨t, _, rfl, rfl, rfl⟩
    rfl)
  have hdiagnostics := h.diagnostics.imp (S := Eq) (by
    rintro _ _ ⟨t, _, problem, rfl, rfl, rfl⟩
    rfl)
  rw [List.forall₂_eq_eq_eq, Array.toList_inj] at hlines hdiagnostics
  exact ⟨hlines, hdiagnostics⟩

/-- **Compiling gives the same in every world** as in a new one: code, lines, diagnostics and
constants. It changes no global of the world, and every symbol keeps its text. -/
theorem World.compile_eq_in_new_world (limits : Limits) (w : World) (source : String) :
    (w.compile limits source).isSome = (World.empty.compile limits source).isSome ∧
      ∀ c w' new new', w.compile limits source = some (c, w') →
        World.empty.compile limits source = some (new, new') →
        c.chunk.code = new.chunk.code ∧ c.chunk.lines = new.chunk.lines ∧
          c.diagnostics = new.diagnostics ∧
          c.chunk.constants.map (Value.datum w'.interner) =
            new.chunk.constants.map (Value.datum new'.interner) ∧
          w'.globals = w.globals ∧
          ∀ symbol, w.interner.Issued symbol →
            w'.interner.text symbol = w.interner.text symbol := by
  have hrefl : ∀ tokens : List Token, List.Forall₂ Eq tokens tokens := fun tokens =>
    List.forall₂_eq_eq_eq ▸ rfl
  have halike := compile_alike (T := Eq) (by rintro _ _ rfl; exact ⟨rfl, rfl⟩) rfl rfl
    (hrefl (scan source).tokens) limits w.interner World.empty.interner
  rw [World.compile, World.compile]
  obtain ⟨hnone, hnone'⟩ | ⟨c, new, hc, hnew, hsame⟩ := halike
  · rw [hnone, hnone']
    refine ⟨rfl, ?_⟩
    rintro _ _ _ _ ⟨⟩
  · rw [hc, hnew]
    refine ⟨rfl, ?_⟩
    rintro _ _ _ _ ⟨⟩ ⟨⟩
    exact ⟨hsame.code, hsame.eq.1, hsame.eq.2, hsame.constants, rfl,
      fun symbol hissued => (grows_of_compile hc).text_eq hissued⟩

/-- A world that has seen a text and has a global of that name. -/
def World.withGlobal (name : String) (v : Value) : World :=
  let (symbol, w) := World.empty.intern name
  { w with globals := (w.globals.insert symbol v).2 }

/-- Where a text has been interned before, the symbols in the pool are others. -/
theorem World.compile_eq_in_new_world_of_global : ∃ c w' new new',
    (World.withGlobal "b" (.bool true)).compile {} "print a + \"b\";" = some (c, w') ∧
      World.empty.compile {} "print a + \"b\";" = some (new, new') ∧
      c.chunk.constants ≠ new.chunk.constants ∧
      c.chunk.constants.map (Value.datum w'.interner) =
        new.chunk.constants.map (Value.datum new'.interner) ∧
      w'.globals = (World.withGlobal "b" (.bool true)).globals := by
  have hcompiles : ((World.withGlobal "b" (.bool true)).compile {} "print a + \"b\";").any (fun p =>
      (World.empty.compile {} "print a + \"b\";").any (fun q =>
        p.1.chunk.constants != q.1.chunk.constants)) = true := by decide +kernel
  obtain ⟨⟨c, w'⟩, hc, hcompiles⟩ := (Option.any_eq_true _ _).mp hcompiles
  obtain ⟨⟨new, new'⟩, hnew, hne⟩ := (Option.any_eq_true _ _).mp hcompiles
  obtain ⟨-, hsame⟩ :=
    World.compile_eq_in_new_world {} (World.withGlobal "b" (.bool true)) "print a + \"b\";"
  obtain ⟨-, -, -, hconstants, hglobals, -⟩ := hsame c w' new new' hc hnew
  exact ⟨c, w', new, new', hc, hnew, bne_iff_ne.mp hne, hconstants, hglobals⟩

end Lox
