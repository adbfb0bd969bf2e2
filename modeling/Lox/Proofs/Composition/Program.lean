import Lox.Proofs.Acceptance
import Lox.Proofs.Renaming.Grammar
import Lox.Proofs.Token.Joining
import Lox.Proofs.Translation.Skeleton

/-!
# Joined programs

A source that consists of two others, with a line feed between them, spells the declarations of the
one and then those of the other. Everything that a program must keep to holds of both together if it
holds of each, except that the constants of both need places in one pool.

## Main results

* `Decl.DerivesAll.map`: what tokens spell does not depend on where they stand.
* `accepted_append_iff`: when declarations of two accepted programs are one accepted program.
* `compile_join_iff`: when two sources that compile can be joined.
-/

namespace Lox

/-! ### Tokens elsewhere -/

/-- The function changes the places of tokens at most. -/
def Token.Keeps (f : Token → Token) : Prop := ∀ t, (f t).kind = t.kind ∧ (f t).lexeme = t.lexeme

/-- **What tokens spell** does not depend on where they stand. -/
theorem Decl.DerivesAll.map {f : Token → Token} {ds : List Decl} {ts : List Token} (hf : Token.Keeps f)
    (h : Decl.DerivesAll ds ts) : Decl.DerivesAll ds (ts.map f) := by
  have hts : List.Forall₂ (Token.Renamed id) ts (ts.map f) :=
    List.forall₂_map_right_iff.mpr (List.forall₂_same.mpr fun t _ =>
      ⟨(hf t).1, (hf t).2.trans (ite_self _).symm⟩)
  rw [← Decl.renameAll_id ds]
  exact h.rename hts

/-- Declarations one after the other are spelled one after the other. -/
theorem Decl.DerivesAll.append {ds es : List Decl} {ts us : List Token}
    (h : Decl.DerivesAll ds ts) (h' : Decl.DerivesAll es us) :
    Decl.DerivesAll (ds ++ es) (ts ++ us) := by
  induction ds generalizing ts with
  | nil =>
    cases h with
    | nil => exact h'
  | cons d ds ih =>
    cases h with
    | cons head tail =>
      rw [List.append_assoc]
      exact .cons head (ih tail)

/-! ### Requirements -/

section Requirements

variable {limit : Nat} (ds es : List Decl)

theorem Decl.heightAll_append :
    Decl.heightAll (ds ++ es) = max (Decl.heightAll ds) (Decl.heightAll es) := by
  induction ds with
  | nil => exact (Nat.zero_max _).symm
  | cons d ds ih => rw [List.cons_append, Decl.heightAll, Decl.heightAll, ih, Nat.max_assoc]

theorem Decl.wellScopedAll_append (scopes : Scopes) :
    Decl.WellScopedAll limit scopes (ds ++ es) ↔ Decl.WellScopedAll limit scopes ds ∧
      Decl.WellScopedAll limit (Decl.scopesAfterAll scopes ds) es := by
  induction ds generalizing scopes with
  | nil => exact (and_iff_right trivial).symm
  | cons d ds ih =>
    rw [List.cons_append, Decl.WellScopedAll, Decl.WellScopedAll, ih, and_assoc]
    exact Iff.rfl

theorem Decl.constantsAll_append (scopes : Scopes) :
    Decl.constantsAll scopes (ds ++ es) =
      Decl.constantsAll scopes ds ++ Decl.constantsAll (Decl.scopesAfterAll scopes ds) es := by
  induction ds generalizing scopes with
  | nil => rfl
  | cons d ds ih =>
    rw [List.cons_append, Decl.constantsAll, Decl.constantsAll, ih, List.append_assoc]
    rfl

theorem Decl.codeAll_append (scopes : Scopes) (pool : Pool) :
    Decl.codeAll scopes (ds ++ es) pool = Decl.codeAll scopes ds pool ++
      Decl.codeAll (Decl.scopesAfterAll scopes ds) es
        (pool.addAll (Decl.constantsAll scopes ds)) := by
  induction ds generalizing scopes pool with
  | nil => rfl
  | cons d ds ih =>
    rw [List.cons_append, Decl.codeAll, Decl.codeAll, Decl.constantsAll, ih, List.append_assoc,
      Pool.addAll_append]
    rfl

end Requirements

/-- **Two accepted programs** are accepted as one if the constants of both have places in one
pool. -/
theorem accepted_append_iff {limits : Limits} {ds es : List Decl} (hds : Accepted limits ds)
    (hes : Accepted limits es) : Accepted limits (ds ++ es) ↔
      poolSize (Decl.constantsAll [] ds ++ Decl.constantsAll [] es) ≤ Draft.maxConstants := by
  rw [accepted_iff, Decl.wellScopedAll_append, Decl.constantsAll_append, Decl.codeAll_append,
    Decl.heightAll_append, Decl.scopesAfterAll_nil, jumpsFit_append,
    Decl.jumpsFit_codeAll_iff [] es _ []]
  constructor
  · rintro ⟨-, hconstants, -, -⟩
    exact hconstants
  · intro hconstants
    exact ⟨⟨hds.scopes, hes.scopes⟩, hconstants, ⟨hds.jumps, hes.jumps⟩,
      Nat.max_le.mpr ⟨hds.nesting, hes.nesting⟩⟩

/-! ### Sources -/

/-- The source is free of lexical errors, and its tokens spell the program, which keeps to the
requirements. -/
structure Spells (limits : Limits) (source : String) (program : List Decl) : Prop where
  proper : ∀ t ∈ (scan source).tokens, t.kind.error? = none
  derives : Decl.DerivesAll program (scan source).tokens
  accepted : Accepted limits program

section Sources

variable {limits : Limits} {interner : Interner} {a b source : String} {c : Compilation}
  {ds es program : List Decl}

/-- What a source spells that compiles without a report. -/
theorem spells_of_compile (h : compile limits interner source = some c)
    (hsuccess : c.isSuccess = true) :
    ∃ program, Spells limits source program ∧
      c.chunk.constants.toList.map (Value.datum c.interner) = Decl.programPool program := by
  obtain ⟨program, hprogram⟩ := exists_program_of_compile h hsuccess
  obtain ⟨haccepted, -, hpool⟩ := matches_of_compile h hsuccess hprogram
  obtain ⟨hrunning, hclean, -⟩ := compile_eq_some_iff.mp ⟨h, hsuccess⟩
  refine ⟨program, ⟨Draft.error?_of_clean hclean hrunning, hprogram, haccepted⟩, ?_⟩
  have hdata := hpool.imp fun _ _ hdenotes => hdenotes.datum_eq
  rwa [← List.forall₂_map_left_iff, List.forall₂_eq_eq_eq] at hdata

/-- A source that spells a program compiles without a report, whatever has been interned. -/
theorem Spells.exists_compile (h : Spells limits source program) (interner : Interner) :
    ∃ c, compile limits interner source = some c ∧ c.isSuccess = true := by
  have hmatches : (Draft.ofSource limits interner source).Matches _ :=
    (Draft.meets_ofSource h.proper h.derives).of_condition h.accepted
  exact ⟨_, compile_eq_some_iff.mpr ⟨hmatches.running, hmatches.clean, rfl⟩⟩

theorem Token.keeps_shift (bytes lines : Nat) : Token.Keeps (Token.shift bytes lines) :=
  fun _ => ⟨rfl, rfl⟩

/-- The tokens of two sources joined by a line feed. -/
theorem Spells.tokens_join (ha : Spells limits a ds) (b : String) : ∃ bytes lines,
    (scan (a ++ "\n" ++ b)).tokens =
      (scan a).tokens ++ (scan b).tokens.map (Token.shift bytes lines) := by
  refine ⟨_, _, scan_append_newline b fun t ht hopen => ?_⟩
  have herror := ha.proper t ht
  rw [hopen] at herror
  cases herror

/-- **Joined sources** spell the joined programs if the constants of both have places in one pool. -/
theorem Spells.join (ha : Spells limits a ds) (hb : Spells limits b es)
    (hpool : poolSize (Decl.constantsAll [] ds ++ Decl.constantsAll [] es) ≤ Draft.maxConstants) :
    Spells limits (a ++ "\n" ++ b) (ds ++ es) := by
  obtain ⟨bytes, lines, htokens⟩ := ha.tokens_join b
  refine ⟨fun t ht => ?_, ?_, (accepted_append_iff ha.accepted hb.accepted).mpr hpool⟩
  · rw [htokens] at ht
    rcases List.mem_append.mp ht with ht | ht
    · exact ha.proper t ht
    · obtain ⟨u, hu, rfl⟩ := List.mem_map.mp ht
      exact hb.proper u hu
  · rw [htokens]
    exact ha.derives.append (hb.derives.map (Token.keeps_shift bytes lines))

/-- Joined sources compile without a report if and only if the constants of both have places in one
pool. -/
theorem Spells.compile_join_iff (ha : Spells limits a ds) (hb : Spells limits b es)
    (interner : Interner) :
    (∃ c, compile limits interner (a ++ "\n" ++ b) = some c ∧ c.isSuccess = true) ↔
      poolSize (Decl.constantsAll [] ds ++ Decl.constantsAll [] es) ≤ Draft.maxConstants := by
  constructor
  · rintro ⟨c, hc, hsuccess⟩
    obtain ⟨bytes, lines, htokens⟩ := ha.tokens_join b
    have hderives := ha.derives.append (hb.derives.map (Token.keeps_shift bytes lines))
    rw [← htokens] at hderives
    exact (accepted_append_iff ha.accepted hb.accepted).mp
      (matches_of_compile hc hsuccess hderives).1
  · exact fun hpool => (ha.join hb hpool).exists_compile interner

end Sources

end Lox
