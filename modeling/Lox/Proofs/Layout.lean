import Lox.Proofs.Lockstep.Alike

/-!
# Layout

Blanks and comments between the tokens of a source, and where its lines end, make no difference to
what it compiles to. Only the places that diagnostics and the line table name depend on them: they
never decide what is written, which constant has which index or how far a jump goes.

## Main definitions

* `Token.content`, `Diagnostic.content`: a token and a diagnostic, without their places.

## Main results

* `compile_of_same_content`: sources with the same tokens compile to the same, places apart.
-/

namespace Lox

/-- What a token is and its text, without its place. -/
def Token.content (t : Token) : TokenKind × String := (t.kind, t.lexeme)

/-- What a diagnostic says, without its place. -/
def Diagnostic.content (x : Diagnostic) : Problem × Location := (x.problem, x.location)

/-- The two tokens are the same but for their places. -/
def Token.SameContent (t t' : Token) : Prop := t.content = t'.content

theorem Token.places_sameContent : Token.Places SameContent := fun _ _ h => Prod.mk.inj h

/-- The location of a diagnostic depends on the content of its token. -/
theorem Diagnostic.Related.content_eq {x x' : Diagnostic} (h : x.Related Token.SameContent x') :
    x.content = x'.content := by
  obtain ⟨t, t', problem, ht, rfl, rfl⟩ := h
  obtain ⟨hkind, hlexeme⟩ := Token.places_sameContent t t' ht
  show (problem, Location.ofToken t) = (problem, Location.ofToken t')
  rw [Location.ofToken, Location.ofToken, hkind, hlexeme]

/-- **Layout does not matter.** Two sources with the same tokens but for their places, lexical errors
included, both compile or both do not; and if they do, their code, their constants and what their
diagnostics say are the same, whatever has been interned before. -/
theorem compile_of_same_content {source source' : String}
    (h : (scan source).tokens.map Token.content = (scan source').tokens.map Token.content)
    (limits : Limits) (interner interner' : Interner) :
    (compile limits interner source).isSome = (compile limits interner' source').isSome ∧
      ∀ c c', compile limits interner source = some c → compile limits interner' source' = some c' →
        c.chunk.code = c'.chunk.code ∧
          c.chunk.constants.map (Value.datum c.interner) =
            c'.chunk.constants.map (Value.datum c'.interner) ∧
          c.diagnostics.map Diagnostic.content = c'.diagnostics.map Diagnostic.content := by
  have htokens : List.Forall₂ Token.SameContent (scan source).tokens (scan source').tokens := by
    rwa [← List.forall₂_eq_eq_eq, List.forall₂_map_left_iff, List.forall₂_map_right_iff] at h
  have hlast : Token.SameContent (scan source).last (scan source').last := rfl
  obtain ⟨hnone, hnone'⟩ | ⟨c, c', hc, hc', hsame⟩ := compile_alike Token.places_sameContent rfl hlast
    htokens limits interner interner'
  · rw [hnone, hnone']
    exact ⟨rfl, nofun⟩
  · rw [hc, hc']
    refine ⟨rfl, ?_⟩
    rintro _ _ ⟨⟩ ⟨⟩
    refine ⟨hsame.code, hsame.constants, ?_⟩
    rw [← Array.toList_inj, Array.toList_map, Array.toList_map, ← List.forall₂_eq_eq_eq,
      List.forall₂_map_left_iff, List.forall₂_map_right_iff]
    exact hsame.diagnostics.imp fun _ _ hrelated => hrelated.content_eq

/-- A local, a loop, a stray character and an open parenthesis, on one line and on several. -/
theorem compile_of_reflowed :
    ∃ c c', (scan "\x7bvar a=\"x\";while(a!=b)a=nil;\x7d@print(b;").tokens.map Token.content =
        (scan "\x7b // start\n var a\n=\"x\" ; while ( a != b )\ta= nil;\x7d\r\n@print ( b\n;").tokens.map
          Token.content ∧
      compile {} .empty "\x7bvar a=\"x\";while(a!=b)a=nil;\x7d@print(b;" = some c ∧
      compile {} .empty
        "\x7b // start\n var a\n=\"x\" ; while ( a != b )\ta= nil;\x7d\r\n@print ( b\n;" = some c' ∧
      c.diagnostics.size = 2 ∧ c.chunk.code = c'.chunk.code ∧
      c.diagnostics.map Diagnostic.content = c'.diagnostics.map Diagnostic.content := by
  have hsame : (scan "\x7bvar a=\"x\";while(a!=b)a=nil;\x7d@print(b;").tokens.map Token.content =
      (scan "\x7b // start\n var a\n=\"x\" ; while ( a != b )\ta= nil;\x7d\r\n@print ( b\n;").tokens.map
        Token.content := by decide +kernel
  obtain ⟨hfinish, hequal⟩ := compile_of_same_content hsame {} .empty .empty
  have hcompile : (compile {} .empty "\x7bvar a=\"x\";while(a!=b)a=nil;\x7d@print(b;").any
      (·.diagnostics.size = 2) = true := by decide +kernel
  obtain ⟨c, hc, hsize⟩ := (Option.any_eq_true _ _).mp hcompile
  rw [hc, Option.isSome_some] at hfinish
  obtain ⟨c', hc'⟩ := Option.isSome_iff_exists.mp hfinish.symm
  obtain ⟨hcode, -, hdiagnostics⟩ := hequal c c' hc hc'
  exact ⟨c, c', hsame, hc, hc', of_decide_eq_true hsize, hcode, hdiagnostics⟩

end Lox
