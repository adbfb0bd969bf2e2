import Lox.Proofs.Token.Joining
import Mathlib.Data.List.TakeWhile

/-!
# Tokens before other text

A token, and the gap before it, are read in the same way before another text, if that does not go on
with what ends here: with a word, a number, an operator or a slash.

## Main definitions

* `Breaks`: what ends before one text ends before another.

## Main results

* `longestToken_replace`: the token at the front of a text does not depend on what comes behind it.
* `Place.skipFrom_replace`: neither does a gap on the token behind it.
-/

namespace Lox

variable {c : Char} {text rest rest' : List Char} {kind : TokenKind}

/-- Whatever ends before `rest` ends before `rest'` as well. -/
structure Breaks (rest rest' : List Char) : Prop where
  word : (∀ x ∈ rest.head?, isWordPart x = false) → ∀ x ∈ rest'.head?, isWordPart x = false
  digit : (∀ x ∈ rest.head?, x.isDigit = false) → ∀ x ∈ rest'.head?, x.isDigit = false
  fraction : fractionSize rest = 0 → fractionSize rest' = 0
  equal : rest.head? ≠ some '=' → rest'.head? ≠ some '='
  slash : rest.head? ≠ some '/' → rest'.head? ≠ some '/'

/-! ### Runs of characters -/

section Runs

variable {p : Char → Bool}

theorem takeWhile_run (hall : ∀ x ∈ text, p x) (hend : ∀ x ∈ rest.head?, p x = false) :
    (text ++ rest).takeWhile p = text := by
  rw [List.takeWhile_append_of_pos hall]
  cases rest with
  | nil => exact List.append_nil text
  | cons c rest =>
    rw [List.takeWhile_cons_of_neg (by rw [hend c rfl]; decide), List.append_nil]

theorem dropWhile_run (hall : ∀ x ∈ text, p x) (hend : ∀ x ∈ rest.head?, p x = false) :
    (text ++ rest).dropWhile p = rest := by
  rw [List.dropWhile_append_of_pos hall]
  cases rest with
  | nil => rfl
  | cons c rest => exact List.dropWhile_cons_of_neg (by rw [hend c rfl]; decide)

theorem head?_dropWhile (rest : List Char) : ∀ x ∈ (rest.dropWhile p).head?, p x = false := by
  intro x hx
  have hhead := List.head?_dropWhile_not p rest
  rw [Option.mem_def.mp hx] at hhead
  exact hhead

/-- A run as long as the text in front is that text. -/
theorem run_of_length (h : ((text ++ rest).takeWhile p).length = text.length) :
    (∀ x ∈ text, p x) ∧ (∀ x ∈ rest.head?, p x = false) ∧ (text ++ rest).dropWhile p = rest := by
  obtain ⟨htext, hrest⟩ := List.append_inj List.takeWhile_append_dropWhile h
  refine ⟨fun x hx => ?_, ?_, hrest⟩
  · rw [← htext] at hx
    exact List.mem_takeWhile_imp hx
  · rw [← hrest]
    exact head?_dropWhile _

end Runs

/-! ### Numbers -/

/-- A fraction is a point and the digits behind it. -/
theorem exists_of_fractionSize_ne_zero (h : fractionSize rest ≠ 0) : ∃ digits after,
    rest = '.' :: digits ++ after ∧ digits ≠ [] ∧ (∀ x ∈ digits, x.isDigit) ∧
      (∀ x ∈ after.head?, x.isDigit = false) ∧ fractionSize rest = digits.length + 1 := by
  rw [fractionSize.eq_def] at h ⊢
  split at h
  · next rest =>
    refine ⟨rest.takeWhile Char.isDigit, rest.dropWhile Char.isDigit, ?_, ?_,
      fun x hx => List.mem_takeWhile_imp hx, head?_dropWhile rest, ?_⟩
    · rw [List.cons_append, List.takeWhile_append_dropWhile]
    · intro hnil
      rw [hnil] at h
      exact h rfl
    · cases hdigits : (rest.takeWhile Char.isDigit).length with
      | zero =>
        rw [hdigits] at h
        exact absurd rfl h
      | succ digits => rfl
  · exact absurd rfl h

theorem fractionSize_point {digits : List Char} (hne : digits ≠ []) (hall : ∀ x ∈ digits, x.isDigit)
    (hend : ∀ x ∈ rest.head?, x.isDigit = false) :
    fractionSize ('.' :: (digits ++ rest)) = digits.length + 1 := by
  obtain ⟨n, hn⟩ := Nat.exists_eq_succ_of_ne_zero (mt List.length_eq_zero_iff.mp hne)
  rw [fractionSize, takeWhile_run hall hend, hn]

theorem numberSize_replace (hbreaks : Breaks rest rest')
    (h : numberSize (text ++ rest) = text.length + 1) :
    numberSize (text ++ rest') = text.length + 1 := by
  rw [numberSize] at h
  by_cases hfraction : fractionSize ((text ++ rest).dropWhile Char.isDigit) = 0
  · have hlength : ((text ++ rest).takeWhile Char.isDigit).length = text.length := by omega
    obtain ⟨hall, hend, hdrop⟩ := run_of_length hlength
    rw [hdrop] at hfraction
    rw [numberSize, takeWhile_run hall (hbreaks.digit hend), dropWhile_run hall (hbreaks.digit hend),
      hbreaks.fraction hfraction]
    omega
  · obtain ⟨digits, after, hdrop, hne, hall, hend, hsize⟩ := exists_of_fractionSize_ne_zero hfraction
    have hwhole : ∀ x ∈ (text ++ rest).takeWhile Char.isDigit, x.isDigit := fun x hx =>
      List.mem_takeWhile_imp hx
    have hsplit := List.takeWhile_append_dropWhile (p := Char.isDigit) (l := text ++ rest)
    rw [hsize] at h
    rw [hdrop, ← List.append_assoc] at hsplit
    generalize (text ++ rest).takeWhile Char.isDigit = whole at *
    obtain ⟨rfl, rfl⟩ := List.append_inj hsplit (by
      rw [List.length_append, List.length_cons]
      omega)
    have hpoint : ∀ x ∈ ('.' :: (digits ++ rest')).head?, x.isDigit = false := by
      rintro x ⟨⟩
      rfl
    rw [numberSize, List.append_assoc, List.cons_append, takeWhile_run hwhole hpoint,
      dropWhile_run hwhole hpoint, fractionSize_point hne hall (hbreaks.digit hend),
      List.length_append, List.length_cons]
    omega

/-! ### Strings and punctuation -/

theorem stringToken_replace (hclosed : kind ≠ .invalid .unterminatedString)
    (h : stringToken (text ++ rest) = (kind, text.length + 1)) (rest' : List Char) :
    stringToken (text ++ rest') = (kind, text.length + 1) := by
  have hsize : (stringToken text).1 ≠ .invalid .unterminatedString := by
    intro hopen
    have hbody : (text.takeWhile (· != '"')).length = text.length := by
      rw [stringToken] at hopen
      split at hopen
      · cases hopen
      · next hlt => exact Nat.le_antisymm (List.takeWhile_prefix _).length_le (Nat.le_of_not_lt hlt)
    rw [stringToken, List.takeWhile_append, if_pos hbody, List.length_append] at h
    split at h
    · have := congrArg Prod.snd h
      simp only at this
      omega
    · exact hclosed (congrArg Prod.fst h).symm
  rw [stringToken_append hsize] at h ⊢
  exact h

theorem punctuation_replace (hbreaks : Breaks rest rest')
    (h : punctuation c (text ++ rest) = (kind, text.length + 1)) :
    punctuation c (text ++ rest') = (kind, text.length + 1) := by
  cases text with
  | cons x text =>
    rw [← h]
    exact punctuation_congr Iff.rfl c
  | nil =>
    rw [List.nil_append] at h ⊢
    by_cases hequal : rest.head? = some '='
    · -- An `=` that does not belong to the token is none that the token could take.
      have hsingle : ∀ two one, withEqual rest two one ≠ (kind, 1) := by
        intro two one heq
        rw [withEqual, if_pos hequal] at heq
        cases heq
      rw [punctuation.eq_def] at h ⊢
      split at h <;> first | exact absurd h (hsingle _ _) | exact h
    · rw [← h]
      exact punctuation_congr (iff_of_false (hbreaks.equal hequal) hequal) c

/-! ### Tokens -/

/-- A word is read in front of whatever does not go on with it. -/
theorem longestToken_word (hstart : isWordStart c) (hall : ∀ x ∈ text, isWordPart x)
    (hend : ∀ x ∈ rest.head?, isWordPart x = false) :
    longestToken c (text ++ rest) = (.ofWord (String.ofList (c :: text)), text.length + 1) := by
  rw [longestToken, if_pos hstart, takeWhile_run hall hend]
  rfl

/-- **The token at the front** of a text is read in the same way before another text. -/
theorem longestToken_replace (hbreaks : Breaks rest rest')
    (hclosed : kind ≠ .invalid .unterminatedString)
    (h : longestToken c (text ++ rest) = (kind, text.length + 1)) :
    longestToken c (text ++ rest') = (kind, text.length + 1) := by
  by_cases hword : isWordStart c
  · have hlength : ((text ++ rest).takeWhile isWordPart).length = text.length := by
      rw [longestToken, if_pos hword] at h
      exact Nat.succ.inj (congrArg Prod.snd h)
    obtain ⟨hall, hend, -⟩ := run_of_length hlength
    rw [← h, longestToken_word hword hall (hbreaks.word hend), longestToken_word hword hall hend]
  rw [longestToken, if_neg hword] at h ⊢
  by_cases hdigit : c.isDigit
  · rw [if_pos hdigit] at h ⊢
    rw [numberSize_replace hbreaks (congrArg Prod.snd h)]
    exact congrArg (Prod.mk · _) (congrArg Prod.fst h)
  rw [if_neg hdigit] at h ⊢
  by_cases hquote : c == '"'
  · rw [if_pos hquote] at h ⊢
    exact stringToken_replace hclosed h rest'
  · rw [if_neg hquote] at h ⊢
    exact punctuation_replace hbreaks h

/-! ### Gaps -/

namespace Place

/-- What is behind a gap is not passed over. -/
theorem skipFrom_rest (inComment : Bool) (rest : List Char) (offset line offset' line' : Nat) :
    skipFrom false (skipFrom inComment rest offset line).rest offset' line' =
      ⟨(skipFrom inComment rest offset line).rest, offset', line'⟩ := by
  induction rest generalizing inComment offset line with
  | nil => rfl
  | cons c rest ih =>
    rw [skipFrom]
    split
    · exact ih _ _ _
    split
    · exact ih _ _ _
    split
    · exact ih _ _ _
    · next hblank hslashes => rw [skipFrom, if_neg (by decide), if_neg hblank, if_neg hslashes]

/-- Where the text starts does not matter to what is passed over. -/
theorem rest_skipFrom (inComment : Bool) (rest : List Char) (offset line offset' line' : Nat) :
    (skipFrom inComment rest offset line).rest = (skipFrom inComment rest offset' line').rest := by
  have hzero : ∀ offset line, (skipFrom inComment rest offset line).rest =
      (skipFrom inComment rest 0 0).rest := fun offset line => by
    rw [← Nat.zero_add offset, ← Nat.zero_add line, skipFrom_shift, shift]
  rw [hzero, hzero offset']

/-- Where a gap ends, and what starts none. -/
theorem skipFrom_cons_eq_self_iff {c : Char} {rest : List Char} {offset line : Nat} :
    skipFrom false (c :: rest) offset line = ⟨c :: rest, offset, line⟩ ↔
      isBlank c = false ∧ ¬(c = '/' ∧ rest.head? = some '/') := by
  have hshorter : ∀ inComment offset' line',
      skipFrom inComment rest offset' line' ≠ ⟨c :: rest, offset, line⟩ := by
    intro inComment offset' line' heq
    have hlength := length_rest_skipFrom_le inComment rest offset' line'
    rw [heq] at hlength
    exact Nat.not_succ_le_self _ hlength
  have hslashes : (c == '/' && rest.head? == some '/') = true ↔ c = '/' ∧ rest.head? = some '/' := by
    rw [Bool.and_eq_true, beq_iff_eq, beq_iff_eq]
  rw [skipFrom, if_neg (by decide), ← hslashes]
  cases hblank : isBlank c with
  | true => exact iff_of_false (hshorter _ _ _) (by simp)
  | false =>
    rw [if_neg (by decide)]
    split
    · next hs => exact iff_of_false (hshorter _ _ _) fun hboth => hboth.2 hs
    · next hs => exact iff_of_true rfl ⟨rfl, hs⟩

/-- Inside a comment something is passed over. -/
theorem skipFrom_true_ne (c : Char) (rest : List Char) (offset line : Nat) :
    (skipFrom true (c :: rest) offset line).rest ≠ c :: rest := by
  intro heq
  have hlength := length_rest_skipFrom_le (c != '\n') rest (offset + c.utf8Size) (lineAfter c line)
  rw [skipFrom, if_pos rfl] at heq
  rw [heq, List.length_cons] at hlength
  exact Nat.not_succ_le_self _ hlength

/-- **A gap** is passed over in the same way in front of another text that no gap starts. -/
theorem skipFrom_replace (inComment : Bool) (gap : List Char) {rest rest' : List Char}
    (hne : rest ≠ []) {offset offset' line : Nat}
    (h : (skipFrom inComment (gap ++ rest) offset line).rest = rest)
    (hstart : ∀ offset line, skipFrom false rest' offset line = ⟨rest', offset, line⟩) :
    ∃ stop, skipFrom inComment (gap ++ rest') offset' line =
      ⟨rest', stop, (skipFrom inComment (gap ++ rest) offset line).line⟩ := by
  induction gap generalizing inComment offset offset' line with
  | nil =>
    have hout : inComment = false := by
      cases inComment with
      | false => rfl
      | true =>
        obtain ⟨c, rest, rfl⟩ := List.exists_cons_of_ne_nil hne
        exact absurd h (skipFrom_true_ne c rest offset line)
    subst hout
    refine ⟨offset', ?_⟩
    rw [List.nil_append] at h ⊢
    have hstay := skipFrom_rest false rest offset line offset line
    rw [h] at hstay
    rw [hstart, List.nil_append, hstay]
  | cons c gap ih =>
    rw [List.cons_append, skipFrom] at h ⊢
    rw [List.cons_append, skipFrom]
    by_cases hcomment : inComment
    · rw [if_pos hcomment] at h ⊢
      rw [if_pos hcomment]
      exact ih _ h
    rw [if_neg hcomment] at h ⊢
    rw [if_neg hcomment]
    by_cases hblank : isBlank c
    · rw [if_pos hblank] at h ⊢
      rw [if_pos hblank]
      exact ih _ h
    rw [if_neg hblank] at h ⊢
    rw [if_neg hblank]
    by_cases hslashes : c == '/' && (gap ++ rest).head? == some '/'
    · rw [if_pos hslashes] at h ⊢
      have hslashes' : (c == '/' && (gap ++ rest').head? == some '/') = true := by
        cases gap with
        | nil =>
          obtain ⟨c', rest, rfl⟩ := List.exists_cons_of_ne_nil hne
          exact absurd h (skipFrom_true_ne c' rest _ line)
        | cons => exact hslashes
      rw [if_pos hslashes']
      exact ih _ h
    · rw [if_neg hslashes] at h
      have hlength := congrArg List.length h
      simp only [List.length_cons, List.length_append] at hlength
      omega

end Place

end Lox
