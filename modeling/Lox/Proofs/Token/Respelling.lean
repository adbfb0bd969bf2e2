import Lox.Compilation.Renaming
import Lox.Proofs.Token.Patterns
import Lox.Proofs.Token.Replacing

/-!
# The tokens of a respelled source

A source in which identifiers are replaced by identifiers has tokens of the same kinds, on the same
lines, with the new texts. For no token depends on what comes behind it but for the question whether
that goes on with it, and an identifier goes on with what another identifier goes on with.

## Main definitions

* `Token.CanBecome`: a text can be put in the place of a token.
* `Token.Respells`: a token of the respelled source.

## Main results

* `respell_lexeme`: spelled as it is, a source is respelled as it is.
* `Place.forall₂_tokens_respell`: the tokens of a respelled text.
* `scan_respell`: those of a respelled source.
-/

namespace Lox

/-- The text can be put in the place of the token: an identifier for an identifier, and for any
other token the same text only. -/
def Token.CanBecome (t : Token) (text : String) : Prop :=
  if t.kind = .identifier then isIdentifier text = true else text = t.lexeme

/-- The token `t'` stands for `t` where each token is spelled anew. -/
structure Token.Respells (spelling : Token → String) (t t' : Token) : Prop where
  kind : t'.kind = t.kind
  lexeme : t'.lexeme = spelling t
  line : t'.line = t.line

/-! ### Identifiers -/

theorem exists_of_isIdentifier {name : String} (h : isIdentifier name = true) : ∃ c text,
    name.toList = c :: text ∧ isWordStart c ∧ (∀ x ∈ text, isWordPart x) ∧
      TokenKind.ofWord name = .identifier := by
  rw [isIdentifier] at h
  split at h
  · cases h
  · next c text heq =>
    simp only [Bool.and_eq_true, beq_iff_eq, List.all_eq_true] at h
    exact ⟨c, text, heq, h.1.1, h.1.2, h.2⟩

/-- Only words are identifiers. -/
theorem isWordStart_of_kind {c : Char} {rest : List Char}
    (h : (longestToken c rest).1 = .identifier) : isWordStart c = true := by
  have hother : ∀ kind ∈ punctuationKinds, kind ≠ .identifier := by decide
  by_contra hstart
  rw [longestToken, if_neg hstart] at h
  split at h
  · cases h
  split at h
  · rw [stringToken] at h
    split at h <;> cases h
  · exact hother _ (punctuation_kind_mem c rest) h

theorem isWordPart_of_isWordStart {c : Char} (h : isWordStart c = true) : isWordPart c = true := by
  rw [isWordPart, h, Bool.true_or]

/-- A character that starts a word starts nothing else. -/
theorem ne_of_isWordStart {c : Char} (h : isWordStart c = true) :
    isBlank c = false ∧ c ≠ '.' ∧ c ≠ '=' ∧ c ≠ '/' := by
  have hne : ∀ c', isWordStart c' = false → c ≠ c' := by
    rintro c' hc' rfl
    exact absurd (hc'.symm.trans h) (by decide)
  refine ⟨?_, hne _ (by decide), hne _ (by decide), hne _ (by decide)⟩
  simp only [isBlank, Bool.or_eq_false_iff, beq_eq_false_iff_ne]
  exact ⟨⟨⟨⟨hne _ (by decide), hne _ (by decide)⟩, hne _ (by decide)⟩, hne _ (by decide)⟩,
    hne _ (by decide)⟩

theorem count_newline_of_isIdentifier {name : String} (h : isIdentifier name = true) :
    name.toList.count '\n' = 0 := by
  obtain ⟨c, text, htext, hstart, hall, -⟩ := exists_of_isIdentifier h
  have hparts : ∀ x ∈ c :: text, isWordPart x := by
    simpa using ⟨isWordPart_of_isWordStart hstart, hall⟩
  rw [htext]
  exact List.count_eq_zero.mpr fun hmem => absurd (hparts _ hmem) (by decide)

/-- A token of the kind of identifiers has the text of one. -/
theorem isIdentifier_lexeme {p : Place} {t : Token} (h : t ∈ p.tokens) (hkind : t.kind = .identifier) :
    isIdentifier t.lexeme = true := by
  obtain ⟨c, rest, htoken, hlexeme⟩ := Place.exists_of_mem_tokens h
  rw [hkind] at htoken
  have hstart := isWordStart_of_kind htoken.symm
  rw [longestToken, if_pos hstart] at htoken hlexeme
  have hparts : ∀ x ∈ rest.takeWhile isWordPart, isWordPart x := fun x hx => List.mem_takeWhile_imp hx
  have htake : (c :: rest).take (c :: rest.takeWhile isWordPart).length =
      c :: rest.takeWhile isWordPart := by
    rw [List.length_cons, List.take_succ_cons, ← List.prefix_iff_eq_take.mp (List.takeWhile_prefix _)]
  simp only [htake] at hlexeme
  rw [hlexeme, isIdentifier, String.toList_ofList]
  simp only [Bool.and_eq_true, beq_iff_eq, List.all_eq_true]
  exact ⟨⟨hstart, hparts⟩, htoken.symm⟩

/-- What can be put in the place of a token has as many line feeds. -/
theorem Token.CanBecome.count_newline {t : Token} {text : String} (h : t.CanBecome text)
    (ht : t.kind = .identifier → isIdentifier t.lexeme = true) :
    text.toList.count '\n' = t.lexeme.toList.count '\n' := by
  rw [Token.CanBecome] at h
  split at h
  · next hkind => rw [count_newline_of_isIdentifier h, count_newline_of_isIdentifier (ht hkind)]
  · rw [h]

namespace Place

variable {p q p' : Place} {t : Token} {spelling : Token → String}

/-! ### Pieces of a text -/

theorem rest_eq_gap_append (p : Place) : p.rest = p.gap ++ p.skipGap.rest := by
  obtain ⟨front, hfront⟩ := suffix_skipFrom false p.rest p.offset p.line
  have hfront : front ++ p.skipGap.rest = p.rest := hfront
  have hgap : p.gap = front := by
    rw [gap, ← hfront, List.length_append, Nat.add_sub_cancel_right, List.take_left]
  rw [hgap, hfront]

/-- What is read stands behind a gap and before the place that it leads to. -/
theorem rest_of_next? (h : p.next? = some (t, q)) :
    p.skipGap.rest = t.lexeme.toList ++ q.rest ∧ p.rest = p.gap ++ t.lexeme.toList ++ q.rest := by
  have hskip : p.skipGap.rest = t.lexeme.toList ++ q.rest := by
    obtain ⟨c, rest, hskip, rfl, rfl⟩ := next?_eq_some_iff.mp h
    rw [move, hskip, String.toList_ofList, List.take_append_drop]
  refine ⟨hskip, ?_⟩
  rw [List.append_assoc, ← hskip]
  exact rest_eq_gap_append p

theorem respell_of_none (h : p.next? = none) : p.respell spelling = p.rest := by
  rw [respell]
  split
  · rfl
  · next h' =>
    rw [h] at h'
    cases h'

theorem respell_of_some (h : p.next? = some (t, q)) :
    p.respell spelling = p.gap ++ (spelling t).toList ++ q.respell spelling := by
  rw [respell]
  split
  · next h' =>
    rw [h] at h'
    cases h'
  · next h' =>
    rw [h] at h'
    cases h'
    rfl

theorem mem_tokens_of_next? (h : p.next? = some (t, q)) : t ∈ p.tokens := by
  rw [tokens_eq, h]
  exact List.mem_cons_self

/-- A text with its tokens spelled as they are. -/
theorem respell_lexeme (p : Place) : p.respell Token.lexeme = p.rest := by
  induction hn : p.rest.length using Nat.strongRecOn generalizing p with
  | ind n ih =>
    cases hnext : p.next? with
    | none => exact respell_of_none hnext
    | some pair =>
      obtain ⟨t, q⟩ := pair
      rw [respell_of_some hnext, ih _ (hn ▸ length_rest_lt_of_next? hnext) q rfl,
        (rest_of_next? hnext).2]

/-- A gap starts with a blank or a slash. -/
theorem head?_gap {c : Char} (h : c ∈ p.gap.head?) : isBlank c = true ∨ c = '/' := by
  have hrest := rest_eq_gap_append p
  obtain ⟨gap, hgap⟩ : ∃ gap, p.gap = c :: gap := by
    cases hgap : p.gap with
    | nil =>
      rw [hgap] at h
      cases h
    | cons c' gap =>
      rw [hgap] at h
      cases h
      exact ⟨gap, rfl⟩
  have hskip : (skipFrom false p.rest p.offset p.line).rest ≠ p.rest := by
    intro heq
    have hlength := congrArg List.length hrest
    rw [show p.skipGap.rest = p.rest from heq, hgap, List.length_append, List.length_cons] at hlength
    omega
  rw [hgap, List.cons_append] at hrest
  rw [hrest, skipFrom, if_neg (by decide)] at hskip
  by_contra hneither
  obtain ⟨hblank, hslash⟩ := not_or.mp hneither
  rw [if_neg hblank, if_neg] at hskip
  · exact hskip rfl
  · simp [hslash]

/-! ### What comes behind a token -/

section Behind

variable {c c' : Char} {rest rest' : List Char}

theorem fractionSize_of_ne (h : c ≠ '.') (rest : List Char) : fractionSize (c :: rest) = 0 :=
  fractionSize.eq_2 _ (by simpa using h)

/-- A text that starts with the same character, other than a point, stops the same. -/
theorem breaks_cons (hpoint : c ≠ '.') (rest rest' : List Char) : Breaks (c :: rest) (c :: rest') where
  word h := h
  digit h := h
  fraction _ := fractionSize_of_ne hpoint rest'
  equal h := h
  slash h := h

/-- Behind a point it depends on whether a digit follows. -/
theorem breaks_point (h : Breaks rest rest') : Breaks ('.' :: rest) ('.' :: rest') where
  word h := h
  digit h := h
  fraction hnone := by
    have hdigits : ∀ rest : List Char,
        fractionSize ('.' :: rest) = 0 ↔ ∀ x ∈ rest.head?, x.isDigit = false := by
      intro rest
      cases rest with
      | nil => exact iff_of_true rfl nofun
      | cons c rest =>
        rw [fractionSize]
        cases hdigit : c.isDigit with
        | false => simp [hdigit]
        | true => simp [hdigit]
    exact (hdigits _).mpr (h.digit ((hdigits _).mp hnone))
  equal h := h
  slash h := h

/-- A word stops what another word stops. -/
theorem breaks_word (hc : isWordStart c = true) (hc' : isWordStart c' = true) (rest rest' : List Char) :
    Breaks (c :: rest) (c' :: rest') where
  word h := absurd (h c rfl) (by rw [isWordPart_of_isWordStart hc]; decide)
  digit _ := by
    rintro x ⟨⟩
    exact isDigit_of_isWordStart hc'
  fraction _ := fractionSize_of_ne (ne_of_isWordStart hc').2.1 rest'
  equal _ := by simpa using (ne_of_isWordStart hc').2.2.1
  slash _ := by simpa using (ne_of_isWordStart hc').2.2.2

end Behind

theorem lexeme_cons (h : p.next? = some (t, q)) : ∃ c text,
    t.lexeme.toList = c :: text ∧ p.skipGap.rest = c :: (text ++ q.rest) ∧
      longestToken c (text ++ q.rest) = (t.kind, text.length + 1) ∧
      t.line = p.skipGap.line + (c :: text).count '\n' ∧ q.line = t.line := by
  obtain ⟨c, rest, hskip, rfl, rfl⟩ := next?_eq_some_iff.mp h
  have hsize := longestToken_size_le c rest
  obtain ⟨n, hn⟩ := Nat.exists_eq_succ_of_ne_zero (Nat.ne_of_gt (longestToken_size_pos c rest))
  have hrest : rest.take n ++ (p.skipGap.move (longestToken c rest).2).rest = rest := by
    rw [move, hskip, hn, List.drop_succ_cons, List.take_append_drop]
  refine ⟨c, rest.take n, ?_, ?_, ?_, ?_, rfl⟩
  · rw [String.toList_ofList, hn, List.take_succ_cons]
  · rw [hrest, hskip]
  · rw [hrest, List.length_take_of_le (by omega)]
    exact Prod.ext rfl hn
  · rw [move, hskip, hn, List.take_succ_cons]

/-- Where a respelled token can stand, nothing before it goes on. -/
theorem breaks_respell (h : ∀ t ∈ p.tokens, t.CanBecome (spelling t)) :
    Breaks p.rest (p.respell spelling) := by
  induction hn : p.rest.length using Nat.strongRecOn generalizing p with
  | ind n ih =>
    rw [tokens_eq] at h
    cases hnext : p.next? with
    | none =>
      rw [respell_of_none hnext]
      exact ⟨fun h => h, fun h => h, fun h => h, fun h => h, fun h => h⟩
    | some pair =>
      obtain ⟨t, q⟩ := pair
      rw [hnext] at h
      have hmore := ih _ (hn ▸ length_rest_lt_of_next? hnext)
        (fun u hu => h u (List.mem_cons_of_mem _ hu)) rfl
      rw [respell_of_some hnext, (rest_of_next? hnext).2]
      cases hgap : p.gap with
      | cons c gap =>
        refine breaks_cons ?_ _ _
        rintro rfl
        have hhead := head?_gap (p := p) (c := '.') (by rw [hgap]; rfl)
        exact absurd hhead (by decide)
      | nil =>
        obtain ⟨c, text, hlexeme, -, htoken, -⟩ := lexeme_cons hnext
        have hbecome := h t List.mem_cons_self
        rw [Token.CanBecome] at hbecome
        rw [List.nil_append, List.nil_append, hlexeme]
        split at hbecome
        · next hkind =>
          obtain ⟨c', text', hspelling, hc', -⟩ := exists_of_isIdentifier hbecome
          rw [hspelling]
          exact breaks_word (isWordStart_of_kind ((congrArg Prod.fst htoken).trans hkind)) hc' _ _
        · rw [hbecome, hlexeme]
          by_cases hpoint : c = '.'
          · subst hpoint
            have htext : text = [] :=
              List.eq_nil_of_length_eq_zero (Nat.succ.inj (congrArg Prod.snd htoken)).symm
            rw [htext]
            exact breaks_point hmore
          · exact breaks_cons hpoint _ _

/-! ### Reading a respelled text -/

/-- What can be put in the place of a token starts where the token started, and is read there. -/
theorem longestToken_respell {c : Char} {more rest rest' : List Char} (hbreaks : Breaks rest rest')
    (hclosed : t.kind ≠ .invalid .unterminatedString) (hlexeme : t.lexeme.toList = c :: more)
    (htoken : longestToken c (more ++ rest) = (t.kind, more.length + 1))
    (hstart : isBlank c = false ∧ ¬(c = '/' ∧ (more ++ rest).head? = some '/')) {text : String}
    (hbecome : t.CanBecome text) : ∃ c' more', text.toList = c' :: more' ∧
      longestToken c' (more' ++ rest') = (t.kind, more'.length + 1) ∧
      isBlank c' = false ∧ ¬(c' = '/' ∧ (more' ++ rest').head? = some '/') := by
  rw [Token.CanBecome] at hbecome
  split at hbecome
  · next hkind =>
    obtain ⟨c', more', htext, hc', hall', hword⟩ := exists_of_isIdentifier hbecome
    have hc : isWordStart c = true := isWordStart_of_kind ((congrArg Prod.fst htoken).trans hkind)
    have hlength : ((more ++ rest).takeWhile isWordPart).length = more.length := by
      rw [longestToken, if_pos hc] at htoken
      exact Nat.succ.inj (congrArg Prod.snd htoken)
    obtain ⟨hall, hend, -⟩ := run_of_length hlength
    refine ⟨c', more', htext, ?_, (ne_of_isWordStart hc').1,
      fun hslash => (ne_of_isWordStart hc').2.2.2 hslash.1⟩
    rw [longestToken_word hc' hall' (hbreaks.word hend), ← htext, String.ofList_toList, hword, hkind]
  · refine ⟨c, more, hbecome ▸ hlexeme, longestToken_replace hbreaks hclosed htoken, hstart.1, ?_⟩
    rintro ⟨rfl, hslash⟩
    refine hstart.2 ⟨rfl, ?_⟩
    cases more with
    | cons => exact hslash
    | nil => exact not_not.mp (mt hbreaks.slash (not_not.mpr hslash))

/-- **A respelled token** is read where the token stood, whatever comes behind, if that goes on with
nothing that ended there before. -/
theorem next?_respell (h : p.next? = some (t, q)) (hclosed : t.kind ≠ .invalid .unterminatedString)
    {text : String} (hbecome : t.CanBecome text) {rest' : List Char} (hbreaks : Breaks q.rest rest')
    (hrest : p'.rest = p.gap ++ text.toList ++ rest') (hline : p'.line = p.line) :
    ∃ t' q', p'.next? = some (t', q') ∧ t'.kind = t.kind ∧ t'.lexeme = text ∧ t'.line = t.line ∧
      q'.rest = rest' ∧ q'.line = q.line := by
  obtain ⟨c, more, hlexeme, hskip, htoken, htline, hqline⟩ := lexeme_cons h
  have hstays : skipFrom false (c :: (more ++ q.rest)) p.offset p.line = ⟨_, p.offset, p.line⟩ :=
    hskip ▸ skipFrom_rest false p.rest p.offset p.line p.offset p.line
  obtain ⟨c', more', htext, htoken', hstart⟩ := longestToken_respell hbreaks hclosed hlexeme
    htoken (skipFrom_cons_eq_self_iff.mp hstays) hbecome
  have hnewlines : (c' :: more').count '\n' = (c :: more).count '\n' := by
    rw [← htext, ← hlexeme]
    exact hbecome.count_newline (isIdentifier_lexeme (mem_tokens_of_next? h))
  obtain ⟨stop, hgap⟩ : ∃ stop, p'.skipGap = ⟨c' :: (more' ++ rest'), stop, p.skipGap.line⟩ := by
    have hp := rest_eq_gap_append p
    have hend : (skipFrom false (p.gap ++ p.skipGap.rest) p.offset p.line).rest = p.skipGap.rest := by
      rw [← hp]
      rfl
    rw [skipGap, hrest, hline, htext, List.append_assoc, skipGap, hp]
    exact skipFrom_replace false p.gap (by rw [hskip]; nofun) hend fun offset line =>
      skipFrom_cons_eq_self_iff.mpr hstart
  have hsize : (longestToken c' (more' ++ rest')).2 = (c' :: more').length := congrArg Prod.snd htoken'
  have htake : (c' :: (more' ++ rest')).take (c' :: more').length = c' :: more' := List.take_left
  refine ⟨_, _, next?_eq_some_iff.mpr ⟨c', more' ++ rest', congrArg rest hgap, rfl, rfl⟩,
    congrArg Prod.fst htoken', ?_, ?_, ?_, ?_⟩
  · rw [hsize, htake, ← htext, String.ofList_toList]
  · rw [hsize, move, hgap, htake, htline, hnewlines]
  · rw [hsize, move, hgap]
    exact List.drop_left
  · rw [hsize, move, hgap, htake, hqline, htline, hnewlines]

/-- **The tokens of a respelled text** are those of the text, spelled anew. -/
theorem forall₂_tokens_respell (hbecome : ∀ t ∈ p.tokens, t.CanBecome (spelling t))
    (hclosed : ∀ t ∈ p.tokens, t.kind ≠ .invalid .unterminatedString)
    (hrest : p'.rest = p.respell spelling) (hline : p'.line = p.line) :
    List.Forall₂ (Token.Respells spelling) p.tokens p'.tokens := by
  induction hn : p.rest.length using Nat.strongRecOn generalizing p p' with
  | ind n ih =>
    rw [tokens_eq] at hbecome hclosed ⊢
    cases hnext : p.next? with
    | none =>
      have hend : (skipFrom false p.rest p.offset p.line).rest = [] := skipGap_of_next?_eq_none hnext
      rw [respell_of_none hnext] at hrest
      have hnone : p'.next? = none := by
        have hend' : p'.skipGap.rest = [] := by
          rw [skipGap, hrest, rest_skipFrom false p.rest p'.offset p'.line p.offset p.line, hend]
        rw [next?, hend']
      rw [tokens_eq, hnone]
      exact .nil
    | some pair =>
      obtain ⟨t, q⟩ := pair
      rw [hnext] at hbecome hclosed
      have hlater : ∀ u ∈ q.tokens, u.CanBecome (spelling u) := fun u hu =>
        hbecome u (List.mem_cons_of_mem _ hu)
      rw [respell_of_some hnext] at hrest
      obtain ⟨t', q', hnext', hkind, hlexeme, htline, hqrest, hqline⟩ :=
        next?_respell hnext (hclosed t List.mem_cons_self) (hbecome t List.mem_cons_self)
          (breaks_respell hlater) hrest hline
      rw [tokens_eq p', hnext']
      exact .cons ⟨hkind, hlexeme, htline⟩ (ih _ (hn ▸ length_rest_lt_of_next? hnext) hlater
        (fun u hu => hclosed u (List.mem_cons_of_mem _ hu)) hqrest hqline rfl)

/-- The new texts have no line feeds that the old ones do not have. -/
theorem count_newline_respell (hbecome : ∀ t ∈ p.tokens, t.CanBecome (spelling t)) :
    (p.respell spelling).count '\n' = p.rest.count '\n' := by
  induction hn : p.rest.length using Nat.strongRecOn generalizing p with
  | ind n ih =>
    rw [tokens_eq] at hbecome
    cases hnext : p.next? with
    | none => rw [respell_of_none hnext]
    | some pair =>
      obtain ⟨t, q⟩ := pair
      rw [hnext] at hbecome
      have hmore := ih _ (hn ▸ length_rest_lt_of_next? hnext)
        (fun u hu => hbecome u (List.mem_cons_of_mem _ hu)) rfl
      have htoken : (spelling t).toList.count '\n' = t.lexeme.toList.count '\n' :=
        (hbecome t List.mem_cons_self).count_newline (isIdentifier_lexeme (mem_tokens_of_next? hnext))
      rw [respell_of_some hnext, (rest_of_next? hnext).2]
      simp only [List.count_append, hmore, htoken]

end Place

/-- A source with its tokens spelled as they are. -/
theorem respell_lexeme (source : String) : respell Token.lexeme source = source := by
  rw [respell, Place.respell_lexeme, Place.start, String.ofList_toList]

/-- **The tokens of a respelled source** are those of the source, spelled anew, and it has as many
lines. -/
theorem scan_respell {spelling : Token → String} {source : String}
    (hbecome : ∀ t ∈ (scan source).tokens, t.CanBecome (spelling t))
    (hclosed : ∀ t ∈ (scan source).tokens, t.kind ≠ .invalid .unterminatedString) :
    List.Forall₂ (Token.Respells spelling) (scan source).tokens
        (scan (respell spelling source)).tokens ∧
      (scan (respell spelling source)).last.line = (scan source).last.line := by
  refine ⟨Place.forall₂_tokens_respell hbecome hclosed String.toList_ofList rfl, ?_⟩
  show 1 + (respell spelling source).toList.count '\n' = 1 + source.toList.count '\n'
  rw [respell, String.toList_ofList, Place.count_newline_respell hbecome, Place.start]

end Lox
