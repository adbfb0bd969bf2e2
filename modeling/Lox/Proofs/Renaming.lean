import Lox.Proofs.Renaming.Grammar
import Lox.Proofs.Renaming.Lines
import Lox.Proofs.Renaming.Translation
import Lox.Proofs.Token.Respelling
import Mathlib.Logic.Equiv.Basic

/-!
# Renaming locals

Which names its locals have makes no difference to a source, as long as different ones stay
different: a renamed source has the tokens of the source with other texts, spells the program with
other names, and that has the same translation. The names of globals are constants of the chunk, so
they must stay.

## Main definitions

* `Renaming.swap`: two identifiers take each other's place.

## Main results

* `compile_renamed`: a source compiles to the same under other names for its locals.
-/

namespace Lox

namespace Renaming

variable (ρ : Renaming)

/-- Different names stay different. -/
theorem name_injective : Function.Injective ρ.name := by
  intro a b hab
  rw [name, name] at hab
  split at hab
  · next ha =>
    split at hab
    · exact congrArg Subtype.val (ρ.injective (Subtype.ext hab))
    · next hb => exact absurd (hab ▸ (ρ.image ⟨a, ha⟩).property) hb
  · next ha =>
    split at hab
    · next hb => exact absurd (hab ▸ (ρ.image ⟨b, hb⟩).property) ha
    · exact hab

/-- The new text of a token can stand in its place. -/
theorem canBecome_lexeme {source : String} {t : Token} (ht : t ∈ (scan source).tokens) :
    t.CanBecome (ρ.lexeme t) := by
  rw [Token.CanBecome, lexeme]
  split
  · next hkind =>
    rw [name, dif_pos (isIdentifier_lexeme ht hkind)]
    exact (ρ.image _).property
  · rfl

/-- The tokens of a renamed source, if the source has no lexical errors. -/
theorem scan_source {source : String} (herror : ∀ t ∈ (scan source).tokens, t.kind.error? = none) :
    List.Forall₂ (Token.Respells ρ.lexeme) (scan source).tokens (scan (ρ.source source)).tokens ∧
      (scan (ρ.source source)).last.line = (scan source).last.line := by
  refine scan_respell (fun _ ht => ρ.canBecome_lexeme ht) fun t ht hkind => ?_
  have hnone := herror t ht
  rw [hkind] at hnone
  cases hnone

/-- A renamed source has no lexical errors either. -/
theorem error?_scan_source {source : String}
    (herror : ∀ t ∈ (scan source).tokens, t.kind.error? = none) :
    ∀ t ∈ (scan (ρ.source source)).tokens, t.kind.error? = none := by
  have htokens := (ρ.scan_source herror).1
  generalize (scan source).tokens = ts, (scan (ρ.source source)).tokens = ts' at herror htokens
  induction htokens with
  | nil => exact List.forall_mem_nil _
  | cons ht _ ih =>
    obtain ⟨hhead, htail⟩ := List.forall_mem_cons.mp herror
    exact List.forall_mem_cons.mpr ⟨ht.kind ▸ hhead, ih htail⟩

/-- Two identifiers take each other's place. -/
def swap (a b : Identifier) : Renaming := ⟨Equiv.swap a b, (Equiv.swap a b).injective⟩

end Renaming

/-- The constants of a source that compiles without a report are those of any program it spells. -/
theorem map_datum_of_compile {limits : Limits} {interner : Interner} {source : String}
    {c : Compilation} (h : compile limits interner source = some c) (hsuccess : c.isSuccess = true)
    {program : List Decl} (hprogram : Decl.DerivesAll program (scan source).tokens) :
    (c.chunk.constants.map (Value.datum c.interner)).toList = Decl.programPool program := by
  obtain ⟨-, -, hpool⟩ := matches_of_compile h hsuccess hprogram
  have hdata := hpool.imp fun _ _ hdenotes => hdenotes.datum_eq
  rwa [← List.forall₂_map_left_iff, List.forall₂_eq_eq_eq, ← Array.toList_map] at hdata

/-- **Renaming locals changes nothing.** A source that compiles without a report spells a program, and
for any program it spells: the source with its identifiers renamed, where each name that declares or
stands for a global stays the same, compiles without a report as well, to the same code on the same
lines, and the same constants. -/
theorem compile_renamed {limits : Limits} {interner : Interner} {source : String} {c : Compilation}
    (h : compile limits interner source = some c) (hsuccess : c.isSuccess = true) :
    (∃ program, Decl.DerivesAll program (scan source).tokens) ∧
      ∀ program, Decl.DerivesAll program (scan source).tokens → ∀ ρ : Renaming,
        (∀ name ∈ Decl.programGlobals program, ρ.name name = name) → ∀ interner' : Interner,
        ∃ c', compile limits interner' (ρ.source source) = some c' ∧ c'.isSuccess = true ∧
          c'.chunk.code = c.chunk.code ∧ c'.chunk.lines = c.chunk.lines ∧
          c'.chunk.constants.map (Value.datum c'.interner) =
            c.chunk.constants.map (Value.datum c.interner) := by
  refine ⟨exists_program_of_compile h hsuccess, fun program hprogram ρ hglobals interner' => ?_⟩
  obtain ⟨haccepted, hcode, -⟩ := matches_of_compile h hsuccess hprogram
  obtain ⟨hrunning, hclean, -⟩ := compile_eq_some_iff.mp ⟨h, hsuccess⟩
  have herror := Draft.error?_of_clean hclean hrunning
  obtain ⟨htokens, hlast⟩ := ρ.scan_source herror
  have hprogram' : Decl.DerivesAll (Decl.renameAll ρ.name program)
      (scan (ρ.source source)).tokens :=
    hprogram.rename (htokens.imp fun t t' ht => ⟨ht.kind, ht.lexeme⟩)
  obtain ⟨c', h', hsuccess'⟩ := (compile_succeeds_iff limits interner' (ρ.source source)).mpr
    ⟨ρ.error?_scan_source herror, _, hprogram', haccepted.rename ρ.name_injective hglobals⟩
  obtain ⟨hcodes, hpools⟩ := Decl.programCode_rename ρ.name_injective hglobals
  refine ⟨c', h', hsuccess', ?_, ?_, ?_⟩
  · obtain ⟨-, hcode', -⟩ := matches_of_compile h' hsuccess' hprogram'
    rw [← Array.toList_inj, hcode', hcode, hcodes]
  · exact lines_eq_of_aligned (htokens.imp fun t t' ht => ⟨ht.kind.symm, ht.line.symm⟩) hlast.symm
      h hsuccess h' hsuccess'
  · rw [← Array.toList_inj, map_datum_of_compile h' hsuccess' hprogram',
      map_datum_of_compile h hsuccess hprogram, hpools]

/-- Two locals with each other's names, and a global. -/
theorem compile_renamed_of_swap : ∃ c c',
    compile {} .empty "\x7bvar a = g; \x7bvar b = a;\x7d\x7d" = some c ∧
    compile {} .empty "\x7bvar b = g; \x7bvar a = b;\x7d\x7d" = some c' ∧
      c'.isSuccess = true ∧ c'.chunk.code = c.chunk.code := by
  have hcompile : (compile {} .empty "\x7bvar a = g; \x7bvar b = a;\x7d\x7d").any
      (·.isSuccess) = true := by decide +kernel
  obtain ⟨c, hc, hsuccess⟩ := (Option.any_eq_true _ _).mp hcompile
  let token (kind : TokenKind) (text : String) (offset : Nat) : Token :=
    ⟨kind, text, ⟨offset, offset + text.utf8ByteSize⟩, 1⟩
  have houter := Decl.Derives.var (t := token .kwVar "var" 1) rfl (.initialized
    (t := token .identifier "a" 5) (u := token .equal "=" 7) (v := token .semicolon ";" 10) rfl rfl
    (.variable (t := token .identifier "g" 9) rfl) rfl)
  have hinner := Decl.Derives.var (t := token .kwVar "var" 13) rfl (.initialized
    (t := token .identifier "b" 17) (u := token .equal "=" 19) (v := token .semicolon ";" 22) rfl rfl
    (.variable (t := token .identifier "a" 21) rfl) rfl)
  have hblock := Stmt.Derives.block (t := token .leftBrace "\x7b" 12)
    (u := token .rightBrace "\x7d" 23) rfl (.cons hinner .nil) rfl
  have hwhole := Stmt.Derives.block (t := token .leftBrace "\x7b" 0)
    (u := token .rightBrace "\x7d" 24) rfl (.cons houter (.cons (.statement hblock) .nil)) rfl
  have hprogram := Decl.DerivesAll.cons (.statement hwhole) .nil
  let ρ : Renaming := .swap ⟨"a", by decide +kernel⟩ ⟨"b", by decide +kernel⟩
  obtain ⟨c', hc', hsuccess', hcode, -⟩ := (compile_renamed hc hsuccess).2 _
    (Eq.mp (congrArg (Decl.DerivesAll _) (by decide +kernel)) hprogram) ρ (by decide +kernel) .empty
  have hsource : ρ.source "\x7bvar a = g; \x7bvar b = a;\x7d\x7d" =
      "\x7bvar b = g; \x7bvar a = b;\x7d\x7d" := by decide +kernel
  exact ⟨c, c', hc, hsource ▸ hc', hsuccess', hcode⟩

end Lox
