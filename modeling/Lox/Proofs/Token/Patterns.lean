import Lox.Proofs.Token.Longest
import Lox.Token.Pattern

/-!
# Scanning takes the longest text

Which patterns a text can have is decided by its first character: a letter starts words only, a
digit numbers, a quote strings, and any other character symbols. For each of the four the token that
is read is the longest text at that place that has a pattern.

## Main results

* `TokenKind.HasText.word_of_start`, `TokenKind.HasText.number_of_start`,
  `TokenKind.HasText.string_of_start`, `TokenKind.HasText.symbol_of_start`: the texts that start with
  a given character.
* `TokenKind.standsAtFront_longestToken`: what is read is what has to stand there.
-/

namespace Lox

variable {c : Char} {text rest found : List Char} {kind other : TokenKind}

/-! ### Prefixes -/

/-- A prefix of characters of a class goes no further than all characters of the class. -/
theorem length_le_takeWhile {p : Char → Bool} (hfront : found <+: rest)
    (hall : ∀ x ∈ found, p x) : found.length ≤ (rest.takeWhile p).length := by
  obtain ⟨after, rfl⟩ := hfront
  rw [List.takeWhile_append_of_pos hall, List.length_append]
  exact Nat.le_add_right ..

/-- A text at the front of another starts with the same character. -/
theorem exists_cons_of_front (hfront : found <+: c :: rest) (hne : found ≠ []) :
    ∃ tail, found = c :: tail ∧ tail <+: rest := by
  obtain ⟨x, tail, rfl⟩ := List.exists_cons_of_ne_nil hne
  obtain ⟨rfl, htail⟩ := List.cons_prefix_cons.mp hfront
  exact ⟨tail, rfl, htail⟩

/-! ### Classes of characters -/

/-- The digits come before the letters and the underscore. -/
theorem isDigit_of_isWordStart (h : isWordStart c) : c.isDigit = false := by
  refine Bool.eq_false_iff.mpr fun hdigit => ?_
  have hhigh : c.val ≤ '9'.val := of_decide_eq_true ((Bool.and_eq_true _ _).mp hdigit).2
  obtain halpha | hunderscore := (Bool.or_eq_true _ _).mp h
  · obtain hupper | hlower := (Bool.or_eq_true _ _).mp halpha
    · have hlow : 'A'.val ≤ c.val := (of_decide_eq_true hupper).1
      exact absurd (UInt32.le_trans hlow hhigh) (by decide)
    · have hlow : 'a'.val ≤ c.val := of_decide_eq_true ((Bool.and_eq_true _ _).mp hlower).1
      exact absurd (UInt32.le_trans hlow hhigh) (by decide)
  · rw [eq_of_beq hunderscore] at hhigh
    exact absurd hhigh (by decide)

/-! ### The patterns of a text by its first character -/

namespace TokenKind

theorem HasText.ne_nil (h : kind.HasText text) : text ≠ [] := by
  have hsymbols : ∀ e ∈ symbols, e.1 ≠ [] := by decide
  have hkeywords : ∀ e ∈ keywords, e.1.toList ≠ [] := by decide
  cases h with
  | symbol mem => exact hsymbols _ mem
  | keyword mem => exact hkeywords _ mem
  | whole hne => exact hne
  | word | quoted | openQuote => exact List.cons_ne_nil _ _
  | fraction => exact List.append_ne_nil_of_right_ne_nil _ (List.cons_ne_nil _ _)

theorem HasText.word_of_start (h : kind.HasText (c :: text)) (hc : isWordStart c) :
    (∀ x ∈ text, isWordPart x) ∧ (kind = identifier ∨ (String.ofList (c :: text), kind) ∈ keywords) := by
  have hsymbols : ∀ e ∈ symbols, e.1.head?.all (!isWordStart ·) := by decide
  have hkeywords : ∀ e ∈ keywords, e.1.toList.all isWordPart := by decide
  have hquote : isWordStart '"' = false := by decide
  have hdigit := isDigit_of_isWordStart hc
  generalize hwhole : c :: text = whole at h
  cases h with
  | symbol mem =>
    have hfalse := (Option.all_eq_true _ _).mp (hsymbols _ mem) c (by rw [← hwhole]; rfl)
    rw [hc] at hfalse
    exact absurd hfalse (by decide)
  | @keyword _ word mem =>
    have hword : String.ofList (c :: text) = word := by rw [hwhole, String.ofList_toList]
    refine ⟨fun x hx => List.all_eq_true.mp (hkeywords _ mem) x ?_, .inr (hwhole ▸ hword ▸ mem)⟩
    rw [← hwhole]
    exact List.mem_cons_of_mem _ hx
  | word _ parts =>
    obtain ⟨rfl, rfl⟩ := List.cons.inj hwhole
    exact ⟨parts, .inl rfl⟩
  | quoted | openQuote =>
    obtain ⟨rfl, -⟩ := List.cons.inj hwhole
    exact absurd (hquote.symm.trans hc) (by decide)
  | whole _ all =>
    rw [all c (hwhole ▸ List.mem_cons_self)] at hdigit
    exact absurd hdigit (by decide)
  | @fraction digits _ hne all =>
    obtain ⟨x, digits, rfl⟩ := List.exists_cons_of_ne_nil hne
    obtain ⟨rfl, -⟩ := List.cons.inj hwhole
    rw [all c List.mem_cons_self] at hdigit
    exact absurd hdigit (by decide)

/-- A text that starts with a digit is a number. -/
theorem HasText.number_of_start (h : kind.HasText (c :: text)) (hc : c.isDigit) :
    kind = number ∧ ((∀ x ∈ text, x.isDigit) ∨ ∃ digits part, text = digits ++ '.' :: part ∧
      (∀ x ∈ digits, x.isDigit) ∧ part ≠ [] ∧ ∀ x ∈ part, x.isDigit) := by
  have hsymbols : ∀ e ∈ symbols, e.1.head?.all (!Char.isDigit ·) := by decide
  have hkeywords : ∀ e ∈ keywords, e.1.toList.head?.all (!Char.isDigit ·) := by decide
  have hquote : '"'.isDigit = false := by decide
  have hdigit : c.isDigit ≠ false := by rw [hc]; decide
  have hstarts : ∀ {whole : List Char}, whole.head?.all (!Char.isDigit ·) → c :: text ≠ whole := by
    rintro _ hall rfl
    exact hdigit ((Bool.not_eq_true' _).mp hall)
  generalize hwhole : c :: text = whole at h
  cases h with
  | symbol mem => exact absurd hwhole (hstarts (hsymbols _ mem))
  | keyword mem => exact absurd hwhole (hstarts (hkeywords _ mem))
  | word start =>
    obtain ⟨rfl, -⟩ := List.cons.inj hwhole
    exact absurd (isDigit_of_isWordStart start) hdigit
  | quoted | openQuote =>
    obtain ⟨rfl, -⟩ := List.cons.inj hwhole
    exact absurd hquote hdigit
  | whole _ all =>
    refine ⟨rfl, .inl fun x hx => all x ?_⟩
    rw [← hwhole]
    exact List.mem_cons_of_mem _ hx
  | @fraction digits part hne all part_ne_nil part_all =>
    obtain ⟨x, digits, rfl⟩ := List.exists_cons_of_ne_nil hne
    obtain ⟨rfl, rfl⟩ := List.cons.inj hwhole
    exact ⟨rfl, .inr ⟨digits, part, rfl, fun y hy => all y (List.mem_cons_of_mem _ hy), part_ne_nil,
      part_all⟩⟩

/-- A text that starts with a quote is a string, closed or open. -/
theorem HasText.string_of_start (h : kind.HasText ('"' :: text)) :
    ∃ body, '"' ∉ body ∧ (kind = string ∧ text = body ++ ['"'] ∨
      kind = invalid .unterminatedString ∧ text = body) := by
  have hsymbols : ∀ e ∈ symbols, e.1.head? ≠ some '"' := by decide
  have hkeywords : ∀ e ∈ keywords, e.1.toList.head? ≠ some '"' := by decide
  have hstart : isWordStart '"' ≠ true := by decide
  have hdigit : '"'.isDigit ≠ true := by decide
  generalize hwhole : '"' :: text = whole at h
  cases h with
  | symbol mem => exact absurd (by rw [← hwhole]; rfl) (hsymbols _ mem)
  | keyword mem => exact absurd (by rw [← hwhole]; rfl) (hkeywords _ mem)
  | word start =>
    obtain ⟨rfl, -⟩ := List.cons.inj hwhole
    exact absurd start hstart
  | quoted closed =>
    obtain ⟨-, rfl⟩ := List.cons.inj hwhole
    exact ⟨_, closed, .inl ⟨rfl, rfl⟩⟩
  | openQuote body_open =>
    obtain ⟨-, rfl⟩ := List.cons.inj hwhole
    exact ⟨_, body_open, .inr ⟨rfl, rfl⟩⟩
  | whole _ all => exact absurd (all '"' (hwhole ▸ List.mem_cons_self)) hdigit
  | @fraction digits _ hne all =>
    obtain ⟨x, digits, rfl⟩ := List.exists_cons_of_ne_nil hne
    obtain ⟨rfl, -⟩ := List.cons.inj hwhole
    exact absurd (all '"' List.mem_cons_self) hdigit

/-- A text that starts with none of these is a symbol. -/
theorem HasText.symbol_of_start (h : kind.HasText (c :: text)) (hstart : ¬isWordStart c)
    (hdigit : ¬c.isDigit) (hquote : c ≠ '"') : (c :: text, kind) ∈ symbols := by
  have hkeywords : ∀ e ∈ keywords, e.1.toList.head?.all isWordStart := by decide
  generalize hwhole : c :: text = whole at h
  cases h with
  | symbol mem => exact mem
  | keyword mem =>
    exact absurd ((Option.all_eq_true _ _).mp (hkeywords _ mem) c (by rw [← hwhole]; rfl)) hstart
  | word start =>
    obtain ⟨rfl, -⟩ := List.cons.inj hwhole
    exact absurd start hstart
  | quoted | openQuote =>
    obtain ⟨rfl, -⟩ := List.cons.inj hwhole
    exact absurd rfl hquote
  | whole _ all => exact absurd (all c (hwhole ▸ List.mem_cons_self)) hdigit
  | @fraction digits _ hne all =>
    obtain ⟨x, digits, rfl⟩ := List.exists_cons_of_ne_nil hne
    obtain ⟨rfl, -⟩ := List.cons.inj hwhole
    exact absurd (all c List.mem_cons_self) hdigit

/-! ### Words -/

/-- A keyword stands for one kind only. -/
theorem ofWord_of_mem {word : String} (h : (word, kind) ∈ keywords) : ofWord word = kind := by
  have hkeywords : ∀ e ∈ keywords, ofWord e.1 = e.2 := by decide
  exact hkeywords _ h

theorem hasText_ofWord (hc : isWordStart c) (htext : ∀ x ∈ text, isWordPart x) :
    (ofWord (String.ofList (c :: text))).HasText (c :: text) := by
  rw [ofWord]
  cases hlookup : keywords.lookup (String.ofList (c :: text)) with
  | none => exact .word hc htext
  | some kind =>
    obtain ⟨before, after, heq, -⟩ := List.lookup_eq_some_iff.mp hlookup
    have hmem : (String.ofList (c :: text), kind) ∈ keywords :=
      heq ▸ List.mem_append_right _ List.mem_cons_self
    simpa using HasText.keyword hmem

theorem longest_word (hc : isWordStart c) :
    (ofWord (String.ofList (c :: rest.takeWhile isWordPart))).Longest
      (c :: rest.takeWhile isWordPart) (c :: rest) where
  hasText := hasText_ofWord hc fun x hx => List.all_eq_true.mp List.all_takeWhile x hx
  front := List.cons_prefix_cons.mpr ⟨rfl, List.takeWhile_prefix _⟩
  longest other found hfound hfront := by
    obtain ⟨tail, rfl, htail⟩ := exists_cons_of_front hfront hfound.ne_nil
    exact Nat.succ_le_succ (length_le_takeWhile htail (hfound.word_of_start hc).1)
  first other hother := by
    obtain ⟨-, hkind | hmem⟩ := hother.word_of_start hc
    · exact .inr hkind
    · exact .inl (ofWord_of_mem hmem).symm

/-! ### Numbers -/

/-- A point with digits behind it, or nothing. -/
theorem exists_fraction (rest : List Char) : ∃ text, text <+: rest ∧
    text.length = fractionSize rest ∧
      (text = [] ∨ ∃ part, text = '.' :: part ∧ part ≠ [] ∧ ∀ x ∈ part, x.isDigit) := by
  rw [fractionSize.eq_def]
  split
  · next rest =>
    split
    · exact ⟨[], List.nil_prefix, rfl, .inl rfl⟩
    · next digits hdigits =>
      refine ⟨'.' :: rest.takeWhile Char.isDigit,
        List.cons_prefix_cons.mpr ⟨rfl, List.takeWhile_prefix _⟩, congrArg Nat.succ hdigits,
        .inr ⟨_, rfl, List.ne_nil_of_length_eq_add_one hdigits, ?_⟩⟩
      exact fun x hx => List.all_eq_true.mp List.all_takeWhile x hx
  · exact ⟨[], List.nil_prefix, rfl, .inl rfl⟩

theorem exists_number (hc : c.isDigit) (rest : List Char) : ∃ text, text <+: c :: rest ∧
    text.length = numberSize rest ∧ number.HasText text := by
  have hall : ∀ x ∈ c :: rest.takeWhile Char.isDigit, x.isDigit := by
    intro x hx
    obtain rfl | hx := List.mem_cons.mp hx
    · exact hc
    · exact List.all_eq_true.mp List.all_takeWhile x hx
  obtain ⟨fraction, hfront, hlength, hfraction⟩ := exists_fraction (rest.dropWhile Char.isDigit)
  refine ⟨c :: rest.takeWhile Char.isDigit ++ fraction, ?_, ?_, ?_⟩
  · rw [List.cons_append, List.cons_prefix_cons]
    refine ⟨rfl, ?_⟩
    conv =>
      rhs
      rw [← List.takeWhile_append_dropWhile (p := Char.isDigit) (l := rest)]
    exact List.prefix_append_right_inj _ |>.mpr hfront
  · rw [List.length_append, List.length_cons, hlength, numberSize, Nat.add_comm 1]
  · obtain rfl | ⟨part, rfl, hne, hpart⟩ := hfraction
    · rw [List.append_nil]
      exact .whole (List.cons_ne_nil _ _) hall
    · exact .fraction (List.cons_ne_nil _ _) hall hne hpart

/-- Digits, a point and digits are no longer than the number there. -/
theorem length_fraction_le {digits part : List Char} (hfront : digits ++ '.' :: part <+: rest)
    (hdigits : ∀ x ∈ digits, x.isDigit) (hne : part ≠ []) (hpart : ∀ x ∈ part, x.isDigit) :
    (digits ++ '.' :: part).length + 1 ≤ numberSize rest := by
  obtain ⟨after, rfl⟩ := hfront
  have hpoint : ¬Char.isDigit '.' = true := by decide
  rw [numberSize, List.append_assoc, List.cons_append, List.takeWhile_append_of_pos hdigits,
    List.dropWhile_append_of_pos hdigits, List.takeWhile_cons_of_neg hpoint,
    List.dropWhile_cons_of_neg hpoint, fractionSize]
  have hle : part.length ≤ ((part ++ after).takeWhile Char.isDigit).length :=
    length_le_takeWhile (List.prefix_append _ _) hpart
  have hpos : 0 < part.length := List.length_pos_iff.mpr hne
  cases hlength : ((part ++ after).takeWhile Char.isDigit).length with
  | zero => omega
  | succ n =>
    rw [hlength] at hle
    simp only [List.length_append, List.length_cons, List.length_nil]
    omega

theorem longest_number (hc : c.isDigit) :
    number.Longest ((c :: rest).take (numberSize rest)) (c :: rest) := by
  obtain ⟨text, hfront, hlength, htext⟩ := exists_number hc rest
  rw [← hlength, ← List.prefix_iff_eq_take.mp hfront]
  refine ⟨htext, hfront, fun other found hfound hfront => ?_, fun other hother => ?_⟩
  · obtain ⟨tail, rfl, htail⟩ := exists_cons_of_front hfront hfound.ne_nil
    rw [hlength, List.length_cons]
    obtain ⟨-, hall | ⟨digits, part, rfl, hdigits, hne, hpart⟩⟩ := hfound.number_of_start hc
    · have hle := length_le_takeWhile htail hall
      rw [numberSize]
      omega
    · exact length_fraction_le htail hdigits hne hpart
  · obtain ⟨tail, rfl, -⟩ := exists_cons_of_front hfront htext.ne_nil
    exact .inl (hother.number_of_start hc).1

/-! ### Strings -/

/-- A text is the part up to the first quote, with what comes from the quote on. -/
theorem eq_append_quote (h : (rest.takeWhile (· != '"')).length < rest.length) :
    ∃ after, rest = rest.takeWhile (· != '"') ++ '"' :: after := by
  have hsplit := List.takeWhile_append_dropWhile (p := (· != '"')) (l := rest)
  cases hafter : rest.dropWhile (· != '"') with
  | nil =>
    rw [hafter, List.append_nil] at hsplit
    rw [hsplit] at h
    exact absurd h (Nat.lt_irrefl _)
  | cons x after =>
    have hquote : x = '"' := by
      have hhead := List.head?_dropWhile_not (· != '"') rest
      rw [hafter] at hhead
      simpa using hhead
    rw [hafter, hquote] at hsplit
    exact ⟨after, hsplit.symm⟩

theorem not_mem_takeWhile_quote : '"' ∉ rest.takeWhile (· != '"') := by
  intro hmem
  have hne := List.all_eq_true.mp List.all_takeWhile _ hmem
  exact absurd hne (by decide)

/-- A string at the front ends at the first quote or before it. -/
theorem length_string_le (hfound : kind.HasText ('"' :: text)) (hfront : text <+: rest) :
    text.length ≤ (rest.takeWhile (· != '"')).length + 1 := by
  obtain ⟨body, hbody, hshape⟩ := hfound.string_of_start
  have hall : ∀ x ∈ body, (x != '"') = true := by
    intro x hx
    rw [bne_iff_ne]
    rintro rfl
    exact hbody hx
  obtain ⟨-, rfl⟩ | ⟨-, rfl⟩ := hshape
  · have hle := length_le_takeWhile ((List.prefix_append _ _).trans hfront) hall
    rw [List.length_append]
    exact Nat.succ_le_succ hle
  · exact Nat.le_succ_of_le (length_le_takeWhile hfront hall)

theorem longest_string (h : (rest.takeWhile (· != '"')).length < rest.length) :
    string.Longest ('"' :: rest.takeWhile (· != '"') ++ ['"']) ('"' :: rest) where
  hasText := .quoted not_mem_takeWhile_quote
  front := by
    obtain ⟨after, hafter⟩ := eq_append_quote h
    rw [List.cons_append]
    refine List.cons_prefix_cons.mpr ⟨rfl, after, ?_⟩
    rw [List.append_assoc]
    exact hafter.symm
  longest other found hfound hfront := by
    obtain ⟨tail, rfl, htail⟩ := exists_cons_of_front hfront hfound.ne_nil
    have hle := length_string_le hfound htail
    simpa using hle
  first other hother := by
    obtain ⟨body, hbody, ⟨hkind, -⟩ | ⟨-, htext⟩⟩ := hother.string_of_start
    · exact .inl hkind
    · exact absurd (htext ▸ List.mem_append_right _ (List.mem_singleton_self _)) hbody

/-! ### Symbols -/

section Symbols

variable (hstart : ¬isWordStart c) (hdigit : ¬c.isDigit) (hquote : c ≠ '"')

include hstart hdigit hquote

theorem HasText.mem_symbols (hfound : other.HasText found) (hfront : found <+: c :: rest) :
    (found, other) ∈ symbols ∧ found.head? = some c := by
  obtain ⟨tail, rfl, -⟩ := exists_cons_of_front hfront hfound.ne_nil
  exact ⟨hfound.symbol_of_start hstart hdigit hquote, rfl⟩

theorem longest_symbol (hmem : (text, kind) ∈ symbols) (hfront : text <+: c :: rest)
    (hlongest : ∀ e ∈ symbols, e.1 <+: c :: rest → e.1.length ≤ text.length) :
    kind.Longest text (c :: rest) where
  hasText := .symbol hmem
  front := hfront
  longest other found hfound hfound_front :=
    hlongest _ (hfound.mem_symbols hstart hdigit hquote hfound_front).1 hfound_front
  first other hother := by
    have hkinds : ∀ e ∈ symbols, ∀ e' ∈ symbols, e'.1 = e.1 → e'.2 = e.2 := by decide
    exact .inl (hkinds _ hmem _ (hother.mem_symbols hstart hdigit hquote hfront).1 rfl)

/-- A symbol of one character is the longest, unless it makes a longer one with an equals sign. -/
theorem longest_single (hmem : ([c], kind) ∈ symbols)
    (hsingle : rest.head? = some '=' → ∀ e ∈ symbols, e.1 ≠ [c, '=']) :
    kind.Longest [c] (c :: rest) := by
  have hshape : ∀ e ∈ symbols, e.1.length ≤ 1 ∨ e.1.tail = ['='] := by decide
  refine longest_symbol hstart hdigit hquote hmem (List.cons_prefix_cons.mpr ⟨rfl, List.nil_prefix⟩)
    fun e he hfront => (hshape e he).resolve_right fun htail => ?_
  have hne : e.1 ≠ [] := by
    intro hnil
    rw [hnil] at htail
    exact absurd htail (by decide)
  obtain ⟨tail, htext, after, rfl⟩ := exists_cons_of_front hfront hne
  rw [htext, List.tail_cons] at htail
  exact hsingle (by rw [htail]; rfl) e he (by rw [htext, htail])

/-- A symbol of two characters is the longest. -/
theorem longest_pair (hmem : ([c, '='], kind) ∈ symbols) (hhead : rest.head? = some '=') :
    kind.Longest [c, '='] (c :: rest) := by
  have hshape : ∀ e ∈ symbols, e.1.length ≤ 2 := by decide
  obtain ⟨after, rfl⟩ := List.head?_eq_some_iff.mp hhead
  exact longest_symbol hstart hdigit hquote hmem ⟨after, rfl⟩ fun e he _ => hshape e he

end Symbols

/-! ### Tokens -/

/-- What is read at `c :: rest`, given by its kind and its size, is what has to stand there. -/
def StandsAtFront (c : Char) (rest : List Char) (token : TokenKind × Nat) : Prop :=
  token.1.Stands ((c :: rest).take token.2) ((c :: rest).drop token.2)

theorem Longest.standsAtFront (h : kind.Longest text (c :: rest)) (herror : kind.error? = none) {size : Nat}
    (hsize : text.length = size) : StandsAtFront c rest (kind, size) := by
  subst hsize
  have htake := List.prefix_iff_eq_take.mp h.front
  refine .token herror ?_
  rw [List.take_append_drop, ← htake]
  exact h

theorem standsAtFront_word (hc : isWordStart c) : StandsAtFront c rest
    (ofWord (String.ofList (c :: rest.takeWhile isWordPart)),
      (c :: rest.takeWhile isWordPart).length) := by
  have hwords : ∀ kind ∈ wordKinds, kind.error? = none := by decide
  exact (longest_word hc).standsAtFront (hwords _ (ofWord_mem _)) rfl

theorem standsAtFront_number (hc : c.isDigit) : StandsAtFront c rest (number, numberSize rest) :=
  (longest_number hc).standsAtFront rfl (List.length_take_of_le (numberSize_le rest))

theorem standsAtFront_string : StandsAtFront '"' rest (stringToken rest) := by
  rw [stringToken]
  split
  · next hclosed =>
    refine (longest_string hclosed).standsAtFront rfl ?_
    rw [List.cons_append, List.length_cons, List.length_append]
    rfl
  · next hopen =>
    have hall : rest.takeWhile (· != '"') = rest :=
      (List.takeWhile_prefix _).eq_of_length
        (Nat.le_antisymm (List.takeWhile_prefix _).length_le (Nat.le_of_not_lt hopen))
    have hbody : '"' ∉ rest.takeWhile (· != '"') := not_mem_takeWhile_quote
    rw [hall] at hbody ⊢
    have hwhole : ('"' :: rest).length ≤ rest.length + 1 := Nat.le_refl _
    show Stands _ (List.take (rest.length + 1) _) (List.drop (rest.length + 1) _)
    rw [List.take_of_length_le hwhole, List.drop_of_length_le hwhole]
    exact .openQuote hbody

theorem standsAtFront_punctuation (hstart : ¬isWordStart c) (hdigit : ¬c.isDigit) (hquote : c ≠ '"') :
    StandsAtFront c rest (punctuation c rest) := by
  have hkinds : ∀ e ∈ symbols, e.2.error? = none := by decide
  have single : ∀ {kind}, ([c], kind) ∈ symbols → (∀ e ∈ symbols, e.1 ≠ [c, '=']) →
      StandsAtFront c rest (kind, 1) := fun hmem hsingle =>
    (longest_single hstart hdigit hquote hmem fun _ => hsingle).standsAtFront (hkinds _ hmem) rfl
  have equal : ∀ {two one}, ([c, '='], two) ∈ symbols → ([c], one) ∈ symbols →
      StandsAtFront c rest (withEqual rest two one) := by
    intro two one htwo hone
    rw [withEqual]
    split
    · next hhead =>
      exact (longest_pair hstart hdigit hquote htwo hhead).standsAtFront (hkinds _ htwo) rfl
    · next hhead =>
      exact (longest_single hstart hdigit hquote hone
        fun h => absurd h hhead).standsAtFront (hkinds _ hone) rfl
  rw [punctuation.eq_def]
  split
  case h_16 =>
    refine .stray fun other found hfound hfront => ?_
    obtain ⟨hmem, hhead⟩ := hfound.mem_symbols hstart hdigit hquote hfront
    have hstarts : ∀ e ∈ symbols, e.1.head?.all fun x => "(){},.-+;/*!=><".toList.contains x := by
      decide
    have hc := (Option.all_eq_true _ _).mp (hstarts _ hmem) c hhead
    simp_all
  all_goals first
    | exact equal (by decide) (by decide)
    | exact single (by decide) (by decide)

/-- **Scanning takes the longest text.** What is read is what has to stand there. -/
theorem standsAtFront_longestToken (c : Char) (rest : List Char) :
    StandsAtFront c rest (longestToken c rest) := by
  rw [longestToken]
  split
  · next hstart => exact standsAtFront_word hstart
  next hstart =>
  split
  · next hdigit => exact standsAtFront_number hdigit
  next hdigit =>
  split
  · next hquote =>
    rw [eq_of_beq hquote]
    exact standsAtFront_string
  · next hquote => exact standsAtFront_punctuation hstart hdigit (by simpa using hquote)

end TokenKind

end Lox
