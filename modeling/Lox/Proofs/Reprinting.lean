import Lox.Proofs.Layout
import Lox.Proofs.Token.Respelling
import Lox.Token.Spacing

/-!
# Printing tokens and scanning them again

The tokens of a source, printed one after the other with separators between them, are scanned as the
tokens of the source. For a token is read in the same way before any text that does not go on with
it, and nothing goes on with a blank.

## Main results

* `Place.skipGap_spacing`: spacing is passed over.
* `Place.next?_spaced`: a token is read behind spacing and before a blank.
* `scan_spaced`: the tokens of a text that has the lexemes of a source.
-/

namespace Lox

variable {gap rest : List Char}

/-! ### Spacing is passed over -/

namespace Place

/-- A comment goes on up to its line feed, which is passed over with it. -/
theorem exists_skipFrom_comment {body : List Char} (hbody : '\n' ∉ body) (rest : List Char)
    (offset line : Nat) : ∃ offset' line',
      skipFrom true (body ++ '\n' :: rest) offset line = skipFrom false rest offset' line' := by
  induction body generalizing offset line with
  | nil => exact ⟨_, _, rfl⟩
  | cons c body ih =>
    obtain ⟨hc, hbody⟩ := List.ne_and_not_mem_of_not_mem_cons hbody
    rw [List.cons_append, skipFrom, if_pos rfl, bne_iff_ne.mpr hc.symm]
    exact ih hbody _ _

theorem exists_skipFrom_spacing (h : Spacing gap) (rest : List Char) (offset line : Nat) :
    ∃ offset' line', skipFrom false (gap ++ rest) offset line = skipFrom false rest offset' line' := by
  induction h generalizing offset line with
  | empty => exact ⟨offset, line, rfl⟩
  | blank hblank _ ih =>
    rw [List.cons_append, skipFrom, if_neg (by decide), if_pos hblank]
    exact ih _ _
  | @comment body gap hbody _ ih =>
    have hslash : skipFrom false ('/' :: '/' :: (body ++ '\n' :: (gap ++ rest))) offset line =
        skipFrom true (body ++ '\n' :: (gap ++ rest)) _ _ := rfl
    obtain ⟨offset', line', hcomment⟩ := exists_skipFrom_comment hbody (gap ++ rest) _ _
    rw [List.cons_append, List.cons_append, List.append_assoc, List.cons_append, hslash, hcomment]
    exact ih _ _

/-- Spacing is passed over up to a token. -/
theorem skipGap_spacing {p : Place} {c : Char} (h : Spacing gap) (hrest : p.rest = gap ++ c :: rest)
    (hstart : isBlank c = false ∧ ¬(c = '/' ∧ rest.head? = some '/')) :
    p.skipGap.rest = c :: rest := by
  obtain ⟨offset, line, hskip⟩ := exists_skipFrom_spacing h (c :: rest) p.offset p.line
  rw [skipGap, hrest, hskip, skipFrom_cons_eq_self_iff.mpr hstart]

theorem tokens_spacing {p : Place} (h : Spacing p.rest) : p.tokens = [] := by
  obtain ⟨offset, line, hskip⟩ := exists_skipFrom_spacing h [] p.offset p.line
  rw [List.append_nil] at hskip
  rw [tokens_eq, next?, skipGap, hskip]
  rfl

/-! ### Tokens between spacing -/

/-- A text that starts with a blank, or is nothing, goes on with no token. -/
theorem breaks_blank {rest' : List Char} (h : ∀ c ∈ rest'.head?, isBlank c) (rest : List Char) :
    Breaks rest rest' := by
  cases rest' with
  | nil => exact ⟨nofun, nofun, fun _ => rfl, nofun, nofun⟩
  | cons c rest' =>
    have hblank : isBlank c := h c rfl
    have hne : ∀ c', isBlank c' = false → c ≠ c' := by
      rintro c' hc' rfl
      exact absurd (hc'.symm.trans hblank) (by decide)
    have hpart : isWordPart c = false := by
      simp only [isBlank, Bool.or_eq_true, beq_iff_eq] at hblank
      rcases hblank with (((rfl | rfl) | rfl) | rfl) | rfl <;> decide
    have hdigit : c.isDigit = false := (Bool.or_eq_false_iff.mp hpart).2
    refine ⟨fun _ => ?_, fun _ => ?_, fun _ => fractionSize_of_ne (hne '.' (by decide)) rest',
      fun _ => ?_, fun _ => ?_⟩
    · rintro x ⟨⟩
      exact hpart
    · rintro x ⟨⟩
      exact hdigit
    · simpa using hne '=' (by decide)
    · simpa using hne '/' (by decide)

/-- **A token is read** behind spacing and before a blank or the end as it is read anywhere else. -/
theorem next?_spaced {p q p' : Place} {t : Token} (h : p.next? = some (t, q))
    (hclosed : t.kind ≠ .invalid .unterminatedString) (hgap : Spacing gap)
    (hrest : p'.rest = gap ++ (t.lexeme.toList ++ rest)) (hblank : ∀ c ∈ rest.head?, isBlank c) :
    ∃ t' q', p'.next? = some (t', q') ∧ t'.content = t.content ∧ q'.rest = rest := by
  obtain ⟨c, text, hlexeme, hskip, htoken, -⟩ := lexeme_cons h
  have hbreaks : Breaks q.rest rest := breaks_blank hblank q.rest
  have hstays : skipFrom false (c :: (text ++ q.rest)) p.offset p.line = ⟨_, p.offset, p.line⟩ :=
    hskip ▸ skipFrom_rest false p.rest p.offset p.line p.offset p.line
  obtain ⟨hc, hslash⟩ := skipFrom_cons_eq_self_iff.mp hstays
  have htoken' := longestToken_replace hbreaks hclosed htoken
  have hslash' : ¬(c = '/' ∧ (text ++ rest).head? = some '/') := by
    rintro ⟨rfl, hhead⟩
    cases text with
    | cons => exact hslash ⟨rfl, hhead⟩
    | nil => exact absurd (hblank '/' hhead) (by decide)
  rw [hlexeme, List.cons_append] at hrest
  have hskip' := skipGap_spacing hgap hrest ⟨hc, hslash'⟩
  have hlength : (longestToken c (text ++ rest)).2 = (c :: text).length := by rw [htoken']; rfl
  refine ⟨_, _, next?_eq_some_iff.mpr ⟨c, text ++ rest, hskip', rfl, rfl⟩, ?_, ?_⟩
  · have htext : t.lexeme = String.ofList (c :: text) := by rw [← hlexeme, String.ofList_toList]
    rw [Token.content, Token.content, hlength, ← List.cons_append, List.take_left, htoken', htext]
  · rw [move, hskip', hlength, ← List.cons_append, List.drop_left]

/-- The tokens of a text that has the lexemes of another one, behind spacing. -/
theorem content_tokens_spaced {p p' : Place} {text : List Char}
    (hclosed : ∀ t ∈ p.tokens, t.kind ≠ .invalid .unterminatedString)
    (hspaced : Spaced (p.tokens.map Token.lexeme) text) (hgap : Spacing gap)
    (hrest : p'.rest = gap ++ text) :
    p'.tokens.map Token.content = p.tokens.map Token.content := by
  induction hn : p.rest.length using Nat.strongRecOn generalizing p p' gap text with
  | ind n ih =>
    rw [tokens_eq p] at hclosed hspaced ⊢
    cases hnext : p.next? with
    | none =>
      rw [hnext] at hspaced
      cases hspaced
      rw [List.append_nil] at hrest
      rw [tokens_spacing (hrest ▸ hgap)]
    | some pair =>
      obtain ⟨t, q⟩ := pair
      rw [hnext] at hclosed hspaced
      -- What is behind the lexeme is a separator with the other lexemes, or nothing.
      obtain ⟨gap', text', htext, hgap', hspaced', hblank⟩ : ∃ gap' text',
          text = t.lexeme.toList ++ (gap' ++ text') ∧ Spacing gap' ∧
            Spaced (q.tokens.map Token.lexeme) text' ∧ ∀ c ∈ (gap' ++ text').head?, isBlank c := by
        generalize hlexemes : (t :: q.tokens).map Token.lexeme = lexemes at hspaced
        cases hspaced with
        | nothing => cases hlexemes
        | last =>
          obtain ⟨rfl, hnil⟩ := List.cons.inj hlexemes
          exact ⟨[], [], (List.append_nil _).symm, .empty, hnil ▸ .nothing, nofun⟩
        | @next _ gap' text' _ hseparates hmore =>
          obtain ⟨rfl, rfl⟩ := List.cons.inj hlexemes
          obtain ⟨c, hc, hblank⟩ := hseparates.blank
          refine ⟨gap', text', List.append_assoc .., hseparates.spacing, hmore, fun x hx => ?_⟩
          rw [List.head?_append, Option.mem_def.mp hc] at hx
          cases hx
          exact hblank
      obtain ⟨t', q', hnext', hcontent, hqrest⟩ :=
        next?_spaced hnext (hclosed t List.mem_cons_self) hgap (htext ▸ hrest) hblank
      rw [tokens_eq, hnext', List.map_cons, List.map_cons, hcontent,
        ih _ (hn ▸ length_rest_lt_of_next? hnext) (fun u hu => hclosed u (List.mem_cons_of_mem _ hu))
          hspaced' hgap' hqrest rfl]

end Place

/-- **Printing the tokens of a source and scanning them again** gives the same tokens, kinds and
lexemes, wherever the separators come from: the text has the lexemes of the source in their order,
with a separator between any two of them, and spacing before the first and behind the last. -/
theorem scan_spaced {source before text : String}
    (hclean : ∀ t ∈ (scan source).tokens, t.kind.error? = none)
    (hbefore : Spacing before.toList)
    (hspaced : Spaced ((scan source).tokens.map Token.lexeme) text.toList) :
    (scan (before ++ text)).tokens.map Token.content = (scan source).tokens.map Token.content := by
  refine Place.content_tokens_spaced (fun t ht hkind => ?_) hspaced hbefore String.toList_append
  have herror := hclean t ht
  rw [hkind] at herror
  cases herror

/-- A number before a point, a slash before a comment, an operator before an equals sign, and a string
with slashes in it, printed with blanks and comments. -/
theorem scan_spaced_of_neighbours :
    let source := "1.5.x/y<=\"//\""
    let before := "// start\n"
    let text := "1.5 . x\t/ // half\ny\r\n<=\n//\n//=\n\"//\" "
    (∀ t ∈ (scan source).tokens, t.kind.error? = none) ∧ Spacing before.toList ∧
      Spaced ((scan source).tokens.map Token.lexeme) text.toList ∧
      (scan (before ++ text)).tokens.map Token.content =
        (scan source).tokens.map Token.content := by
  intro source before text
  have hclean : ∀ t ∈ (scan source).tokens, t.kind.error? = none := by decide +kernel
  have hbefore : Spacing "// start\n".toList := @Spacing.comment " start".toList [] (by decide) .empty
  have hblank : ∀ c, isBlank c → IsSeparator [c] := fun c hc =>
    ⟨.blank hc .empty, c, rfl, hc⟩
  have hlexemes : (scan source).tokens.map Token.lexeme =
      ["1.5", ".", "x", "/", "y", "<=", "\"//\""] := by decide +kernel
  have hspaced : Spaced ["1.5", ".", "x", "/", "y", "<=", "\"//\""]
      "1.5 . x\t/ // half\ny\r\n<=\n//\n//=\n\"//\" ".toList :=
    .next "1.5" (hblank ' ' rfl) <| .next "." (hblank ' ' rfl) <| .next "x" (hblank '\t' rfl) <|
      .next "/" ⟨.blank rfl (@Spacing.comment " half".toList [] (by decide) .empty), ' ', rfl, rfl⟩ <|
      .next "y" ⟨.blank rfl (.blank rfl .empty), '\r', rfl, rfl⟩ <|
      .next "<=" ⟨.blank rfl (@Spacing.comment [] _ (by decide)
        (@Spacing.comment ['='] [] (by decide) .empty)), '\n', rfl, rfl⟩ <|
      .next "\"//\"" (hblank ' ' rfl) .nothing
  rw [← hlexemes] at hspaced
  exact ⟨hclean, hbefore, hspaced, scan_spaced hclean hbefore hspaced⟩

end Lox
