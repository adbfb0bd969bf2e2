import Lox.Proofs.Acceptance
import Lox.Proofs.Number.Bits
import Lox.Proofs.Number.Shortest
import Lox.Proofs.Number.Whole
import Lox.Proofs.Token.Patterns
import Lox.Proofs.Token.Replacing

/-!
# Numbers written and read back

What is written for a finite number without sign is one token of a source, and compiling it gives the
number back, every bit of it. A number with a sign has a minus in front. So different numbers are
written differently.

## Main results

* `Number.parse_write`: reading what has been written.
* `scan_numeral`, `scan_numeral_semicolon`: a numeral is one token.
* `compile_numeral`: a numeral and a semicolon are a program.
* `Number.write_injective`: different numbers are written differently.
-/

namespace Lox

/-! ### Numerals as tokens -/

section Numerals

variable {text : List Char}

/-- The size of a numeral at the end of a text. -/
theorem numberSize_of_hasText {c : Char} (h : TokenKind.number.HasText (c :: text)) :
    numberSize text = text.length + 1 := by
  rcases TokenKind.hasText_number_iff.mp h with
    ⟨-, hall⟩ | ⟨whole, part, heq, hne, hwhole, hpart, hparts⟩
  · have hdigits : ∀ x ∈ text, x.isDigit := fun x hx => hall x (List.mem_cons_of_mem c hx)
    rw [numberSize, List.takeWhile_eq_self_iff.mpr hdigits, List.dropWhile_eq_nil_iff.mpr hdigits]
    exact Nat.add_comm 1 text.length
  · obtain ⟨first, digits, rfl⟩ := List.exists_cons_of_ne_nil hne
    rw [List.cons_append] at heq
    obtain ⟨-, rfl⟩ := List.cons.inj heq
    have hdigits : ∀ x ∈ digits, x.isDigit := fun x hx => hwhole x (List.mem_cons_of_mem _ hx)
    have htake : (digits ++ '.' :: part).takeWhile Char.isDigit = digits := by
      rw [takeWhile_append_cons (by decide), List.takeWhile_eq_self_iff.mpr hdigits]
    have hdrop : (digits ++ '.' :: part).dropWhile Char.isDigit = '.' :: part := by
      rw [dropWhile_append_cons (by decide), List.dropWhile_eq_nil_iff.mpr hdigits, List.nil_append]
    have hfraction : fractionSize ('.' :: part) = part.length + 1 := by
      obtain ⟨n, hn⟩ := Nat.exists_eq_succ_of_ne_zero (List.length_pos_iff.mpr hpart).ne'
      rw [fractionSize, List.takeWhile_eq_self_iff.mpr hparts, hn]
    rw [numberSize, htake, hdrop, hfraction, List.length_append, List.length_cons]
    omega

namespace Place

/-- The token that starts at a place. -/
theorem next?_of_front {c : Char} {rest : List Char} {kind : TokenKind} {size : Nat}
    (h : longestToken c rest = (kind, size)) (hblank : isBlank c = false) (hslash : c ≠ '/')
    (offset line : Nat) :
    ∃ t q, (⟨c :: rest, offset, line⟩ : Place).next? = some (t, q) ∧ t.kind = kind ∧
      t.lexeme = String.ofList ((c :: rest).take size) ∧ q.rest = (c :: rest).drop size := by
  have hgap : (⟨c :: rest, offset, line⟩ : Place).skipGap = ⟨c :: rest, offset, line⟩ :=
    skipFrom_cons_eq_self_iff.mpr ⟨hblank, fun hslashes => hslash hslashes.1⟩
  refine ⟨_, _, next?_eq_some_iff.mpr ⟨c, rest, congrArg Place.rest hgap, rfl, rfl⟩, ?_, ?_, ?_⟩
  · rw [h]
  · rw [h]
  · rw [h, hgap]
    rfl

/-- **A numeral is one token**, at the end of a text and before a semicolon. -/
theorem next?_numeral (h : TokenKind.number.HasText text) (rest : List Char)
    (hrest : ∀ c ∈ rest.head?, c = ';') (offset line : Nat) :
    ∃ t q, (⟨text ++ rest, offset, line⟩ : Place).next? = some (t, q) ∧ t.kind = .number ∧
      t.lexeme = String.ofList text ∧ q.rest = rest := by
  obtain ⟨c, text, rfl, hdigit⟩ := h.exists_digit
  have hblank : isBlank c = false := by
    refine Bool.eq_false_iff.mpr fun hblank => ?_
    simp only [isBlank, Bool.or_eq_true, beq_iff_eq] at hblank
    rcases hblank with (((rfl | rfl) | rfl) | rfl) | rfl <;> exact absurd hdigit (by decide)
  have hslash : c ≠ '/' := by
    rintro rfl
    exact absurd hdigit (by decide)
  have hsize : numberSize (text ++ rest) = text.length + 1 := by
    cases rest with
    | nil => rw [List.append_nil, numberSize_of_hasText h]
    | cons s rest =>
      obtain rfl : s = ';' := hrest s rfl
      rw [numberSize_append_cons separates_semicolon, numberSize_of_hasText h]
  have htoken : longestToken c (text ++ rest) = (.number, text.length + 1) := by
    have hword : ¬isWordStart c = true := fun hword =>
      Bool.eq_false_iff.mp (isDigit_of_isWordStart hword) hdigit
    rw [longestToken, if_neg hword, if_pos hdigit, hsize]
  obtain ⟨t, q, hnext, hkind, hlexeme, hq⟩ := next?_of_front htoken hblank hslash offset line
  exact ⟨t, q, hnext, hkind, by simpa using hlexeme, by simpa using hq⟩

end Place

theorem Place.tokens_of_rest_eq_nil {q : Place} (h : q.rest = []) : q.tokens = [] := by
  obtain ⟨rest, offset, line⟩ := q
  obtain rfl : rest = [] := h
  rw [tokens_eq]
  rfl

/-- A numeral alone. -/
theorem scan_numeral (h : TokenKind.number.HasText text) :
    ∃ t, (scan (String.ofList text)).tokens = [t] ∧ t.kind = .number ∧
      t.lexeme = String.ofList text := by
  obtain ⟨t, q, hnext, hkind, hlexeme, hq⟩ := Place.next?_numeral h [] nofun 0 1
  have hstart : Place.start (String.ofList text) = ⟨text ++ [], 0, 1⟩ := by
    rw [Place.start, String.toList_ofList, List.append_nil]
  refine ⟨t, ?_, hkind, hlexeme⟩
  show (Place.start (String.ofList text)).tokens = [t]
  rw [hstart, Place.tokens_eq, hnext]
  exact congrArg (t :: ·) (Place.tokens_of_rest_eq_nil hq)

/-- A numeral with a semicolon behind it. -/
theorem scan_numeral_semicolon (h : TokenKind.number.HasText text) :
    ∃ t u, (scan (String.ofList text ++ ";")).tokens = [t, u] ∧ t.kind = .number ∧
      t.lexeme = String.ofList text ∧ u.kind = .semicolon := by
  obtain ⟨t, q, hnext, hkind, hlexeme, hq⟩ :=
    Place.next?_numeral h [';'] (by simp) 0 1
  obtain ⟨rest, offset, line⟩ := q
  obtain rfl : rest = [';'] := hq
  have hlast : longestToken ';' [] = (.semicolon, 1) := by decide
  obtain ⟨u, q, hnext', hkind', -, hq⟩ :=
    Place.next?_of_front hlast (by decide) (by decide) offset line
  have hstart : Place.start (String.ofList text ++ ";") = ⟨text ++ [';'], 0, 1⟩ := by
    rw [Place.start, String.toList_append, String.toList_ofList]
    rfl
  refine ⟨t, u, ?_, hkind, hlexeme, hkind'⟩
  show (Place.start (String.ofList text ++ ";")).tokens = [t, u]
  rw [hstart, Place.tokens_eq, hnext]
  show t :: (Place.tokens ⟨[';'], offset, line⟩) = [t, u]
  rw [Place.tokens_eq, hnext']
  exact congrArg (t :: u :: ·) (Place.tokens_of_rest_eq_nil hq)

/-! ### Numerals as programs -/

/-- A number as a program needs nothing that could be missing. -/
theorem accepted_number (x : Float) :
    Accepted {} [.statement (.expression (.number x))] where
  scopes := ⟨trivial, trivial⟩
  constants := by
    have hsize : poolSize [.number x] = 1 := rfl
    show poolSize [.number x] ≤ 256
    rw [hsize]
    decide
  jumps := by
    simp [Decl.codeAll, Decl.code, Stmt.code, Expr.code, Instruction.isJump, OpCode.operand,
      OperandKind.size]
  nesting := by
    show max (max 1 0) 0 ≤ 256
    decide

/-- **A numeral with a semicolon behind it** compiles, and its number is the only constant. -/
theorem compile_numeral (h : TokenKind.number.HasText text) (interner : Interner) :
    ∃ c, compile {} interner (String.ofList text ++ ";") = some c ∧ c.diagnostics = #[] ∧
      c.chunk.constants = #[.number (Number.parse (String.ofList text))] := by
  obtain ⟨t, u, htokens, hkind, hlexeme, hkind'⟩ := scan_numeral_semicolon h
  have hproper : ∀ t ∈ (scan (String.ofList text ++ ";")).tokens, t.kind.error? = none := by
    rw [htokens]
    simp [hkind, hkind', TokenKind.error?]
  have hprogram : Decl.DerivesAll [.statement (.expression (.number (Number.parse t.lexeme)))]
      (scan (String.ofList text ++ ";")).tokens := by
    rw [htokens]
    exact .cons (.statement (.expression (.number hkind) hkind')) .nil
  have hmatches : (Draft.ofSource {} interner (String.ofList text ++ ";")).Matches _ :=
    (Draft.meets_ofSource hproper hprogram).of_condition (accepted_number _)
  obtain ⟨hcompile, -⟩ := compile_eq_some_iff.mpr ⟨hmatches.running, hmatches.clean, rfl⟩
  refine ⟨_, hcompile, hmatches.clean, ?_⟩
  have hpool : List.Forall₂ (Value.Denotes _) _ [Datum.number (Number.parse t.lexeme)] :=
    hmatches.pool.constants
  obtain ⟨value, rest, hvalue, hrest, hconstants⟩ := List.forall₂_cons_right_iff.mp hpool
  obtain rfl := List.forall₂_nil_right_iff.mp hrest
  cases hvalue
  rw [hlexeme] at hconstants
  exact Array.toList_inj.mp hconstants

end Numerals

/-! ### Numbers as numerals -/

namespace Number

variable {x y : Float} {p q : Nat}

/-- The digits of a finite pattern, with a point among them if it is no whole number. -/
def numeral (p : Nat) : List Char := (Binary64.shortest p).plain

theorem hasText_numeral (p : Nat) : TokenKind.number.HasText (numeral p) := Decimal.hasText_plain _

theorem unsigned_display_of_lt (h : p < Binary64.infinity) :
    NumberStyle.display.unsigned p = numeral p := by
  rw [NumberStyle.unsigned_display, if_neg (Nat.ne_of_lt h), numeral]

/-- **A pattern is read back** from its numeral. -/
theorem ofDecimal_ofChars_numeral (h : p < Binary64.infinity) :
    Binary64.ofDecimal (Decimal.ofChars (numeral p)) = p := by
  rw [numeral, Decimal.ofDecimal_ofChars_plain, Binary64.ofDecimal_shortest h]

/-- The text of a number. -/
theorem write_display (h : x.isNaN = false) : write .display x =
    String.ofList (if isNegative x then '-' :: NumberStyle.display.unsigned (pattern x)
      else NumberStyle.display.unsigned (pattern x)) := by
  rw [write, if_neg (isNaN_iff.not.mp (Bool.eq_false_iff.mp h))]

theorem isNaN_of_isFinite (h : x.isFinite = true) : x.isNaN = false :=
  Bool.eq_false_iff.mpr (isNaN_iff.not.mpr (Nat.not_lt.mpr (Nat.le_of_lt (isFinite_iff.mp h))))

/-- The text of a finite number without sign. -/
theorem write_of_isFinite (h : x.isFinite = true) (hsign : isNegative x = false) :
    write .display x = String.ofList (numeral (pattern x)) := by
  rw [write_display (isNaN_of_isFinite h), hsign, if_neg (by decide),
    unsigned_display_of_lt (isFinite_iff.mp h)]

/-- **A number is read back** from its text. -/
theorem parse_write (h : x.isFinite = true) (hsign : isNegative x = false) :
    parse (write .display x) = x := by
  rw [write_of_isFinite h hsign, parse, String.toList_ofList,
    ofDecimal_ofChars_numeral (isFinite_iff.mp h), ofPattern_of_not_isNegative hsign]

/-- **A number with a sign** has a minus before the text of its absolute value. -/
theorem write_of_isNegative (h : x.isNaN = false) (hsign : isNegative x = true) :
    write .display x = "-" ++ write .display x.abs := by
  obtain ⟨hpattern, habs⟩ := pattern_abs h
  have hnumber : x.abs.isNaN = false := by
    rw [Bool.eq_false_iff, Ne, isNaN_iff, hpattern, ← isNaN_iff, ← Ne, ← Bool.eq_false_iff]
    exact h
  rw [write_display h, write_display hnumber, hsign, habs, hpattern, if_pos rfl, if_neg (by decide)]
  exact String.toList_injective (by simp)

/-! ### Different numbers -/

/-- The text of a pattern begins with a digit, or is the word for infinity. -/
theorem exists_unsigned_display (p : Nat) : ∃ c rest, NumberStyle.display.unsigned p = c :: rest ∧
    (c.isDigit = true ∨ c = 'i') ∧ (c = 'i' ↔ p = Binary64.infinity) := by
  rw [NumberStyle.unsigned_display]
  by_cases hinfinity : p = Binary64.infinity
  · exact ⟨'i', ['n', 'f'], if_pos hinfinity, .inr rfl, iff_of_true rfl hinfinity⟩
  · obtain ⟨c, rest, hnumeral, hdigit⟩ := (hasText_numeral p).exists_digit
    refine ⟨c, rest, (if_neg hinfinity).trans hnumeral, .inl hdigit, iff_of_false ?_ hinfinity⟩
    rintro rfl
    exact absurd hdigit (by decide)

theorem unsigned_display_inj (hp : p ≤ Binary64.infinity) (hq : q ≤ Binary64.infinity)
    (h : NumberStyle.display.unsigned p = NumberStyle.display.unsigned q) : p = q := by
  obtain ⟨c, rest, heq, -, hc⟩ := exists_unsigned_display p
  obtain ⟨c', rest', heq', -, hc'⟩ := exists_unsigned_display q
  obtain ⟨rfl, -⟩ := List.cons.inj (heq.symm.trans (h.trans heq'))
  rcases Nat.lt_or_eq_of_le hp with hlt | hinfinity
  · have hlt' : q < Binary64.infinity :=
      Nat.lt_of_le_of_ne hq fun hinfinity => Nat.ne_of_lt hlt (hc.mp (hc'.mpr hinfinity))
    rw [unsigned_display_of_lt hlt, unsigned_display_of_lt hlt'] at h
    rw [← ofDecimal_ofChars_numeral hlt, h, ofDecimal_ofChars_numeral hlt']
  · rw [hinfinity, hc'.mp (hc.mpr hinfinity)]

/-- **Different numbers are written differently**, infinities and zeros with sign included. -/
theorem write_injective (hx : x.isNaN = false) (hy : y.isNaN = false)
    (h : write .display x = write .display y) : x = y := by
  have hle : ∀ {x : Float}, x.isNaN = false → pattern x ≤ Binary64.infinity := fun hx =>
    Nat.not_lt.mp (isNaN_iff.not.mp (Bool.eq_false_iff.mp hx))
  have hminus : ∀ p q : Nat,
      '-' :: NumberStyle.display.unsigned p ≠ NumberStyle.display.unsigned q := by
    intro p q heq
    obtain ⟨c, rest, hfront, hc, -⟩ := exists_unsigned_display q
    obtain ⟨rfl, -⟩ := List.cons.inj (heq.trans hfront)
    exact absurd hc (by decide)
  rw [write_display hx, write_display hy, String.ofList_inj] at h
  cases hsign : isNegative x <;> cases hsign' : isNegative y <;>
    simp only [hsign, hsign', if_true, Bool.false_eq_true, if_false] at h
  · exact ext (unsigned_display_inj (hle hx) (hle hy) h) (hsign.trans hsign'.symm)
  · exact absurd h.symm (hminus _ _)
  · exact absurd h (hminus _ _)
  · exact ext (unsigned_display_inj (hle hx) (hle hy) (List.cons.inj h).2) (hsign.trans hsign'.symm)

/-! ### The round trip -/

/-- **What is written for a number is read back.** The text of a finite number without sign is one
token of a source, and compiling it gives the number as the only constant. A sign is a minus before
the text of the absolute value, and different numbers have different texts. -/
theorem write_display_reads_back (interner : Interner) :
    (∀ x : Float, x.isFinite = true → isNegative x = false →
      (∃ t, (scan (write .display x)).tokens = [t] ∧ t.kind = .number ∧
        t.lexeme = write .display x) ∧
      ∃ c, compile {} interner (write .display x ++ ";") = some c ∧ c.diagnostics = #[] ∧
        c.chunk.constants = #[.number x]) ∧
    (∀ x : Float, x.isFinite = true → isNegative x = true →
      write .display x = "-" ++ write .display x.abs) ∧
    (∀ x y : Float, x.isNaN = false → y.isNaN = false → write .display x = write .display y →
      x = y) := by
  refine ⟨fun x hfinite hsign => ?_, fun x hfinite hsign =>
    write_of_isNegative (isNaN_of_isFinite hfinite) hsign, fun x y hx hy => write_injective hx hy⟩
  have hconstants := compile_numeral (hasText_numeral (pattern x)) interner
  rw [← write_of_isFinite hfinite hsign, parse_write hfinite hsign] at hconstants
  rw [write_of_isFinite hfinite hsign] at hconstants ⊢
  exact ⟨scan_numeral (hasText_numeral (pattern x)), hconstants⟩

/-- The least number, the greatest one, and a zero with a sign. -/
theorem write_display_reads_back_of_extremes :
    let least := ofPattern 1
    let greatest := ofPattern (Binary64.infinity - 1)
    let zero := Float.ofBits 0x8000000000000000
    (least.isFinite = true ∧ isNegative least = false ∧ ∃ c,
      compile {} .empty (write .display least ++ ";") = some c ∧ c.diagnostics = #[] ∧
        c.chunk.constants = #[.number least]) ∧
    (greatest.isFinite = true ∧ isNegative greatest = false ∧ ∃ t,
      (scan (write .display greatest)).tokens = [t] ∧ t.kind = .number ∧
        t.lexeme = write .display greatest) ∧
    (zero.isFinite = true ∧ isNegative zero = true ∧ write .display zero = "-" ++ "0" ∧
      write .display zero.abs = "0" ∧ write .display zero ≠ write .display zero.abs) := by
  intro least greatest zero
  obtain ⟨hreadBack, hminus, hdifferent⟩ := write_display_reads_back .empty
  have hleast : least.isFinite = true ∧ isNegative least = false := by decide +kernel
  have hgreatest : greatest.isFinite = true ∧ isNegative greatest = false := by decide +kernel
  have hzero : zero.isFinite = true ∧ isNegative zero = true := by decide +kernel
  have habs : write .display zero.abs = "0" ∧ zero.isNaN = false ∧ zero.abs.isNaN = false ∧
      isNegative zero.abs = false := by decide +kernel
  refine ⟨⟨hleast.1, hleast.2, (hreadBack least hleast.1 hleast.2).2⟩,
    ⟨hgreatest.1, hgreatest.2, (hreadBack greatest hgreatest.1 hgreatest.2).1⟩,
    hzero.1, hzero.2, ?_, habs.1, fun heq => ?_⟩
  · rw [← habs.1]
    exact hminus zero hzero.1 hzero.2
  · have hsame := hdifferent zero zero.abs habs.2.1 habs.2.2.1 heq
    exact absurd (hzero.2.symm.trans ((congrArg isNegative hsame).trans habs.2.2.2)) (by decide)

end Number

end Lox
