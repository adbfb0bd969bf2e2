import Lox.Token.Scan
import Mathlib.Data.List.Basic

/-!
# Longest tokens

What the token at the front of a text can be, how long it is, and how much of the text decides that.
Behind a *separator*, such as a line feed or a semicolon, comes nothing that a token before it
depends on, open strings apart.

## Main definitions

* `wordKinds`, `punctuationKinds`: what words and punctuation can be.
* `Separates`: a character that ends every token before it.

## Main results

* `longestToken_elim`: what holds of the four sorts of tokens holds of all.
* `exists_quoted_of_stringToken`: a string stands between quotes.
* `longestToken_append_cons`: a token does not depend on what comes behind a separator.
-/

namespace Lox

variable {c s : Char} {rest rest' : List Char}

/-! ### Kinds -/

/-- What holds of words, numbers, strings and punctuation holds of all tokens. -/
theorem longestToken_elim {P : TokenKind × Nat → Prop}
    (word : P (.ofWord (String.ofList (c :: rest.takeWhile isWordPart)),
      (rest.takeWhile isWordPart).length + 1))
    (number : P (.number, numberSize rest)) (string : c = '"' → P (stringToken rest))
    (other : P (punctuation c rest)) : P (longestToken c rest) := by
  rw [longestToken]
  split
  · exact word
  split
  · exact number
  split
  · next hquote => exact string (eq_of_beq hquote)
  · exact other

/-- The kinds of words. -/
def wordKinds : List TokenKind := .identifier :: TokenKind.keywords.map Prod.snd

theorem TokenKind.ofWord_mem (word : String) : ofWord word ∈ wordKinds := by
  rw [ofWord]
  cases hlookup : keywords.lookup word with
  | none => exact List.mem_cons_self
  | some kind =>
    obtain ⟨before, after, heq, -⟩ := List.lookup_eq_some_iff.mp hlookup
    have hmem : (word, kind) ∈ keywords := heq ▸ List.mem_append_right _ List.mem_cons_self
    exact List.mem_cons_of_mem _ (List.mem_map_of_mem hmem)

/-- The kinds of punctuation, and of a character that is none. -/
def punctuationKinds : List TokenKind :=
  [.leftParen, .rightParen, .leftBrace, .rightBrace, .comma, .dot, .minus, .plus, .semicolon,
    .slash, .star, .bang, .bangEqual, .equal, .equalEqual, .greater, .greaterEqual, .less,
    .lessEqual, .invalid .unexpectedCharacter]

theorem withEqual_kind (rest : List Char) (two one : TokenKind) :
    (withEqual rest two one).1 = two ∨ (withEqual rest two one).1 = one := by
  rw [withEqual]
  split
  · exact .inl rfl
  · exact .inr rfl

theorem punctuation_kind_mem (c : Char) (rest : List Char) :
    (punctuation c rest).1 ∈ punctuationKinds := by
  have hequal : ∀ two one : TokenKind, two ∈ punctuationKinds → one ∈ punctuationKinds →
      (withEqual rest two one).1 ∈ punctuationKinds := by
    intro two one htwo hone
    rcases withEqual_kind rest two one with heq | heq <;> rw [heq]
    · exact htwo
    · exact hone
  rw [punctuation.eq_def]
  split <;> first | exact hequal _ _ (by decide) (by decide) | decide

/-- No token of a text is the end of the source. -/
theorem longestToken_kind_ne (c : Char) (rest : List Char) :
    (longestToken c rest).1 ≠ .endOfSource := by
  have hword : ∀ kind ∈ wordKinds, kind ≠ .endOfSource := by decide
  have hother : ∀ kind ∈ punctuationKinds, kind ≠ .endOfSource := by decide
  refine longestToken_elim (P := fun token => token.1 ≠ .endOfSource)
    (hword _ (TokenKind.ofWord_mem _)) (by rintro ⟨⟩) (fun _ => ?_)
    (hother _ (punctuation_kind_mem c rest))
  rw [stringToken]
  split <;> rintro ⟨⟩

/-- A string starts with a quote. -/
theorem longestToken_of_kind_eq_string (h : (longestToken c rest).1 = .string) :
    c = '"' ∧ longestToken c rest = stringToken rest := by
  have hword : ∀ kind ∈ wordKinds, kind ≠ .string := by decide
  have hother : ∀ kind ∈ punctuationKinds, kind ≠ .string := by decide
  revert h
  refine longestToken_elim (P := fun token => token.1 = .string → c = '"' ∧ token = stringToken rest)
    (fun h => absurd h (hword _ (TokenKind.ofWord_mem _))) (by rintro ⟨⟩) (fun hc _ => ⟨hc, rfl⟩)
    (fun h => absurd h (hother _ (punctuation_kind_mem c rest)))

/-- A string token stands between quotes. -/
theorem exists_quoted_of_stringToken (h : (stringToken rest).1 = .string) :
    ∃ text, String.ofList (('"' :: rest).take (stringToken rest).2) = "\"" ++ text ++ "\"" := by
  rw [stringToken] at h ⊢
  by_cases hclosed : (rest.takeWhile (· != '"')).length < rest.length
  · rw [if_pos hclosed]
    refine ⟨String.ofList (rest.takeWhile (· != '"')), ?_⟩
    have hsplit := List.takeWhile_append_dropWhile (p := (· != '"')) (l := rest)
    cases hrest : rest.dropWhile (· != '"') with
    | nil =>
      rw [hrest, List.append_nil] at hsplit
      exact absurd (congrArg List.length hsplit) (Nat.ne_of_lt hclosed)
    | cons q after =>
      have hquote : q = '"' := by
        have hhead := List.head?_dropWhile_not (· != '"') rest
        rw [hrest] at hhead
        simpa using hhead
      rw [hrest, hquote] at hsplit
      have htake : rest.take ((rest.takeWhile (· != '"')).length + 1) =
          rest.takeWhile (· != '"') ++ ['"'] := by
        conv =>
          lhs
          arg 2
          rw [← hsplit]
        rw [List.take_length_add_append]
        rfl
      rw [List.take_succ_cons, htake, ← String.toList_inj]
      simp
  · rw [if_neg hclosed] at h
    exact absurd h (by rintro ⟨⟩)

/-- Only a semicolon is read as one. -/
theorem eq_of_kind_eq_semicolon (h : (longestToken c rest).1 = .semicolon) : c = ';' := by
  have hword : ∀ kind ∈ wordKinds, kind ≠ .semicolon := by decide
  revert h
  refine longestToken_elim (P := fun token => token.1 = .semicolon → c = ';')
    (fun h => absurd h (hword _ (TokenKind.ofWord_mem _))) (by rintro ⟨⟩) (fun _ => ?_) ?_
  · rw [stringToken]
    split <;> rintro ⟨⟩
  · have hequal : ∀ two one : TokenKind, two ≠ .semicolon → one ≠ .semicolon →
        (withEqual rest two one).1 ≠ .semicolon := by
      intro two one htwo hone
      rcases withEqual_kind rest two one with heq | heq <;> rw [heq]
      · exact htwo
      · exact hone
    rw [punctuation.eq_def]
    split <;> first
      | exact fun _ => rfl
      | exact fun h => absurd h (hequal _ _ (by decide) (by decide))
      | rintro ⟨⟩

/-! ### Sizes -/

theorem fractionSize_le (rest : List Char) : fractionSize rest ≤ rest.length := by
  rw [fractionSize.eq_def]
  split
  · next rest =>
    have hdigits : (rest.takeWhile Char.isDigit).length ≤ rest.length :=
      (List.takeWhile_prefix _).length_le
    split
    · exact Nat.zero_le _
    · next hsome =>
      rw [hsome] at hdigits
      exact Nat.succ_le_succ hdigits
  · exact Nat.zero_le _

theorem numberSize_le (rest : List Char) : numberSize rest ≤ rest.length + 1 := by
  have hfraction := fractionSize_le (rest.dropWhile Char.isDigit)
  have hsplit : (rest.takeWhile Char.isDigit).length + (rest.dropWhile Char.isDigit).length =
      rest.length := by
    rw [← List.length_append, List.takeWhile_append_dropWhile]
  rw [numberSize]
  omega

theorem stringToken_size_le (rest : List Char) : (stringToken rest).2 ≤ rest.length + 1 := by
  have hbody : (rest.takeWhile (· != '"')).length ≤ rest.length :=
    (List.takeWhile_prefix _).length_le
  rw [stringToken]
  split
  · next hclosed => exact Nat.succ_le_succ hclosed
  · exact Nat.succ_le_succ hbody

theorem punctuation_size_le (c : Char) (rest : List Char) :
    (punctuation c rest).2 ≤ rest.length + 1 := by
  have hequal : ∀ two one, (withEqual rest two one).2 ≤ rest.length + 1 := by
    intro two one
    rw [withEqual]
    split
    · next hhead =>
      cases rest with
      | nil => cases hhead
      | cons => exact Nat.le_add_left 2 _
    · exact Nat.le_add_left 1 _
  rw [punctuation.eq_def]
  split <;> first | exact hequal _ _ | exact Nat.le_add_left 1 _

/-- A token lies within the text. -/
theorem longestToken_size_le (c : Char) (rest : List Char) :
    (longestToken c rest).2 ≤ rest.length + 1 :=
  longestToken_elim (P := fun token => token.2 ≤ rest.length + 1)
    (Nat.succ_le_succ (List.takeWhile_prefix _).length_le) (numberSize_le rest)
    (fun _ => stringToken_size_le rest) (punctuation_size_le c rest)

/-- An open string goes up to the end. -/
theorem size_of_unterminated (h : (longestToken c rest).1 = .invalid .unterminatedString) :
    (longestToken c rest).2 = rest.length + 1 := by
  have hword : ∀ kind ∈ wordKinds, kind ≠ .invalid .unterminatedString := by decide
  have hother : ∀ kind ∈ punctuationKinds, kind ≠ .invalid .unterminatedString := by decide
  revert h
  refine longestToken_elim
    (P := fun token => token.1 = .invalid .unterminatedString → token.2 = rest.length + 1)
    (fun h => absurd h (hword _ (TokenKind.ofWord_mem _))) (by rintro ⟨⟩) (fun _ => ?_)
    (fun h => absurd h (hother _ (punctuation_kind_mem c rest)))
  rw [stringToken]
  split
  · rintro ⟨⟩
  · next hopen =>
    intro _
    exact congrArg (· + 1)
      (Nat.le_antisymm (List.takeWhile_prefix _).length_le (Nat.le_of_not_lt hopen))

/-! ### Separators -/

/-- The character ends every token before it but an open string: no word, no number and no operator
goes on with it. -/
structure Separates (s : Char) : Prop where
  word : isWordPart s = false
  point : s ≠ '.'
  equal : s ≠ '='

theorem separates_newline : Separates '\n' := ⟨by decide, by decide, by decide⟩

theorem separates_semicolon : Separates ';' := ⟨by decide, by decide, by decide⟩

theorem Separates.digit (hs : Separates s) : s.isDigit = false :=
  (Bool.or_eq_false_iff.mp hs.word).2

theorem takeWhile_append_cons {p : Char → Bool} (hs : p s = false) (rest b : List Char) :
    (rest ++ s :: b).takeWhile p = rest.takeWhile p := by
  rw [List.takeWhile_append]
  split
  · next hall =>
    rw [List.takeWhile_cons_of_neg (by rw [hs]; decide), List.append_nil]
    exact (List.IsPrefix.eq_of_length (List.takeWhile_prefix p) hall).symm
  · rfl

theorem dropWhile_append_cons {p : Char → Bool} (hs : p s = false) (rest b : List Char) :
    (rest ++ s :: b).dropWhile p = rest.dropWhile p ++ s :: b := by
  rw [List.dropWhile_append]
  split
  · next hnone =>
    rw [List.dropWhile_cons_of_neg (by rw [hs]; decide), List.isEmpty_iff.mp hnone, List.nil_append]
  · rfl

theorem fractionSize_append_cons (hs : Separates s) (rest b : List Char) :
    fractionSize (rest ++ s :: b) = fractionSize rest := by
  have hother : ∀ c rest, c ≠ '.' → fractionSize (c :: rest) = 0 := by
    intro c rest hc
    exact fractionSize.eq_2 _ (by simpa using hc)
  cases rest with
  | nil => exact hother s b hs.point
  | cons c rest =>
    rw [List.cons_append]
    by_cases hpoint : c = '.'
    · subst hpoint
      rw [fractionSize, fractionSize, takeWhile_append_cons hs.digit]
    · rw [hother _ _ hpoint, hother _ _ hpoint]

theorem numberSize_append_cons (hs : Separates s) (rest b : List Char) :
    numberSize (rest ++ s :: b) = numberSize rest := by
  rw [numberSize, numberSize, takeWhile_append_cons hs.digit, dropWhile_append_cons hs.digit,
    fractionSize_append_cons hs]

/-- A string that is closed does not depend on what comes behind it. -/
theorem stringToken_append (hclosed : (stringToken rest).1 ≠ .invalid .unterminatedString)
    (b : List Char) : stringToken (rest ++ b) = stringToken rest := by
  have hlt : (rest.takeWhile (· != '"')).length < rest.length := by
    refine Decidable.byContradiction fun hopen => hclosed ?_
    rw [stringToken, if_neg hopen]
  have hbody : (rest ++ b).takeWhile (· != '"') = rest.takeWhile (· != '"') := by
    rw [List.takeWhile_append, if_neg (Nat.ne_of_lt hlt)]
  rw [stringToken, stringToken, hbody, if_pos hlt, if_pos]
  rw [List.length_append]
  exact Nat.lt_add_right _ hlt

theorem punctuation_congr (h : rest.head? = some '=' ↔ rest'.head? = some '=') (c : Char) :
    punctuation c rest = punctuation c rest' := by
  have hequal : ∀ two one, withEqual rest two one = withEqual rest' two one := by
    intro two one
    simp only [withEqual, h]
  simp only [punctuation, hequal]

/-- What the token at the front of a text depends on. -/
theorem longestToken_congr (hword : rest.takeWhile isWordPart = rest'.takeWhile isWordPart)
    (hnumber : numberSize rest = numberSize rest')
    (hstring : c = '"' → stringToken rest = stringToken rest')
    (hhead : rest.head? = some '=' ↔ rest'.head? = some '=') :
    longestToken c rest = longestToken c rest' := by
  rw [longestToken, longestToken, hword, hnumber, punctuation_congr hhead]
  split
  · rfl
  split
  · rfl
  split
  · next hquote => exact hstring (eq_of_beq hquote)
  · rfl

/-- **Tokens end before a separator.** -/
theorem longestToken_append_cons (hs : Separates s)
    (hclosed : (longestToken c rest).1 ≠ .invalid .unterminatedString) (b : List Char) :
    longestToken c (rest ++ s :: b) = longestToken c rest := by
  refine longestToken_congr (takeWhile_append_cons hs.word rest b) (numberSize_append_cons hs rest b)
    (fun hc => ?_) ?_
  · subst hc
    exact stringToken_append hclosed _
  · cases rest with
    | nil => simp [hs.equal]
    | cons => exact Iff.rfl

/-- Tokens in a text that ends with a separator do not depend on what comes behind it. -/
theorem longestToken_append_of_getLast? (hs : Separates s)
    (hclosed : (longestToken c rest).1 ≠ .invalid .unterminatedString)
    (hlast : rest.getLast? = some s) (b : List Char) :
    longestToken c (rest ++ b) = longestToken c rest := by
  obtain ⟨front, rfl⟩ := List.getLast?_eq_some_iff.mp hlast
  rw [List.append_assoc, List.singleton_append]
  refine longestToken_congr ?_ ?_ (fun hc => ?_) ?_
  · rw [takeWhile_append_cons hs.word, takeWhile_append_cons hs.word]
  · rw [numberSize_append_cons hs, numberSize_append_cons hs]
  · subst hc
    rw [List.append_cons, stringToken_append hclosed]
  · cases front <;> exact Iff.rfl

end Lox
