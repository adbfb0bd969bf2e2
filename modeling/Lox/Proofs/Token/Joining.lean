import Lox.Proofs.Token.Scan

/-!
# The tokens of joined texts

The tokens of a text are found again where the text stands behind another one, moved on by the bytes
and the lines of that one. They come after the tokens of the first text, provided that nothing of the
first text goes on into the second: no token and no comment does. A line feed between the two is
enough for that if the first has no open string, and so is a semicolon at the end of the first that
is a token.

## Main definitions

* `Token.shift`, `Place.shift`: a token or a place, moved on.
* `Place.append`: a place with more text behind it.
* `Place.finish`: the place at the end of the text.

## Main results

* `Place.tokens_shift`: the tokens from a place that is moved on.
* `tokens_append_newline`: the tokens of two texts with a line feed between them.
* `tokens_append_of_semicolon`: the tokens of a text behind one that ends with a semicolon.
-/

namespace Lox

/-- The token, moved on by bytes and lines. -/
def Token.shift (bytes lines : Nat) (t : Token) : Token :=
  { t with span := ⟨t.span.start + bytes, t.span.stop + bytes⟩, line := t.line + lines }

namespace Place

variable {p q : Place} {t : Token} {b : List Char}

/-! ### Moving on -/

/-- The place, moved on by bytes and lines. -/
def shift (bytes lines : Nat) (p : Place) : Place :=
  { p with offset := p.offset + bytes, line := p.line + lines }

theorem lineAfter_add (c : Char) (line lines : Nat) :
    lineAfter c (line + lines) = lineAfter c line + lines := by
  rw [lineAfter, lineAfter]
  split
  · exact Nat.add_right_comm ..
  · rfl

theorem skipFrom_shift (bytes lines : Nat) (inComment : Bool) (rest : List Char)
    (offset line : Nat) : skipFrom inComment rest (offset + bytes) (line + lines) =
      (skipFrom inComment rest offset line).shift bytes lines := by
  induction rest generalizing inComment offset line with
  | nil => rfl
  | cons c rest ih =>
    rw [skipFrom, skipFrom, Nat.add_right_comm offset, lineAfter_add]
    split
    · exact ih _ _ _
    split
    · exact ih _ _ _
    split
    · exact ih _ _ _
    · rfl

theorem move_shift (bytes lines size : Nat) (p : Place) :
    (p.shift bytes lines).move size = (p.move size).shift bytes lines := by
  simp only [move, shift, Nat.add_right_comm]

theorem next?_shift (bytes lines : Nat) (p : Place) :
    (p.shift bytes lines).next? =
      p.next?.map (Prod.map (Token.shift bytes lines) (shift bytes lines)) := by
  have hgap : (p.shift bytes lines).skipGap = p.skipGap.shift bytes lines := skipFrom_shift ..
  rw [next?, next?, hgap]
  generalize p.skipGap = p
  simp only [move_shift]
  obtain ⟨rest, offset, line⟩ := p
  cases rest <;> rfl

/-- **The tokens from a place that is moved on** are those from the place, moved on. -/
theorem tokens_shift (bytes lines : Nat) (p : Place) :
    (p.shift bytes lines).tokens = p.tokens.map (Token.shift bytes lines) := by
  induction hn : p.rest.length using Nat.strongRecOn generalizing p with
  | ind n ih =>
    rw [tokens_eq, tokens_eq p, next?_shift]
    cases hnext : p.next? with
    | none => rfl
    | some pair =>
      obtain ⟨t, q⟩ := pair
      exact congrArg (_ :: ·) (ih _ (hn ▸ length_rest_lt_of_next? hnext) q rfl)

/-! ### More text -/

/-- The place with more text behind it. -/
def append (p : Place) (b : List Char) : Place := { p with rest := p.rest ++ b }

/-- The place at the end of the text. -/
def finish (p : Place) : Place :=
  ⟨[], p.offset + (String.ofList p.rest).utf8ByteSize, p.line + p.rest.count '\n'⟩

theorem finish_cons (c : Char) (rest : List Char) (offset line : Nat) :
    finish ⟨rest, offset + c.utf8Size, lineAfter c line⟩ = finish ⟨c :: rest, offset, line⟩ := by
  have hsize : (String.ofList (c :: rest)).utf8ByteSize =
      c.utf8Size + (String.ofList rest).utf8ByteSize := by
    rw [← List.singleton_append, String.ofList_append, String.utf8ByteSize_append]
    simp
  have hline : lineAfter c line + rest.count '\n' = line + (c :: rest).count '\n' := by
    rw [lineAfter, List.count_cons]
    split
    · omega
    · rfl
  simp only [finish, hsize, hline, Nat.add_assoc]

theorem finish_skipFrom (inComment : Bool) (rest : List Char) (offset line : Nat) :
    (skipFrom inComment rest offset line).finish = finish ⟨rest, offset, line⟩ := by
  induction rest generalizing inComment offset line with
  | nil => rfl
  | cons c rest ih =>
    rw [skipFrom]
    split
    · rw [ih, finish_cons]
    split
    · rw [ih, finish_cons]
    split
    · next hslash =>
      have hc : c = '/' := eq_of_beq ((Bool.and_eq_true _ _).mp hslash).1
      have hline : lineAfter c line = line := by
        rw [hc]
        rfl
      rw [ih, ← finish_cons, hline]
    · rfl

theorem finish_move (size : Nat) (p : Place) : (p.move size).finish = p.finish := by
  have hsplit : p.rest = p.rest.take size ++ p.rest.drop size := (List.take_append_drop ..).symm
  have hbytes : (String.ofList p.rest).utf8ByteSize = (String.ofList (p.rest.take size)).utf8ByteSize +
      (String.ofList (p.rest.drop size)).utf8ByteSize := by
    rw [← String.utf8ByteSize_append, ← String.ofList_append, ← hsplit]
  have hlines : p.rest.count '\n' =
      (p.rest.take size).count '\n' + (p.rest.drop size).count '\n' := by
    rw [← List.count_append, ← hsplit]
  simp only [finish, move, hbytes, hlines, Nat.add_assoc]

theorem finish_skipGap (p : Place) : p.skipGap.finish = p.finish := finish_skipFrom ..

theorem finish_of_next? (h : p.next? = some (t, q)) : q.finish = p.finish := by
  obtain ⟨c, rest, -, rfl, -⟩ := next?_eq_some_iff.mp h
  rw [finish_move, finish_skipGap]

/-- A gap that ends before a token ends there whatever comes behind. -/
theorem skipFrom_append (inComment : Bool) (rest : List Char) (offset line : Nat)
    (hslash : rest.getLast? = some '/' → b.head? ≠ some '/')
    (h : (skipFrom inComment rest offset line).rest ≠ []) :
    skipFrom inComment (rest ++ b) offset line =
      (skipFrom inComment rest offset line).append b := by
  induction rest generalizing inComment offset line with
  | nil => exact absurd rfl h
  | cons c rest ih =>
    have hslashes : (c == '/' && (rest ++ b).head? == some '/') =
        (c == '/' && rest.head? == some '/') := by
      cases rest with
      | nil =>
        by_cases hc : c = '/'
        · rw [hc]
          exact congrArg _ (beq_eq_false_iff_ne.mpr (hslash (congrArg some hc)))
        · rw [beq_eq_false_iff_ne.mpr hc, Bool.false_and, Bool.false_and]
      | cons => rfl
    have hrest : rest.getLast? = some '/' → b.head? ≠ some '/' := by
      intro hlast
      refine hslash ?_
      rw [List.getLast?_cons, hlast]
      rfl
    rw [skipFrom] at h
    rw [List.cons_append, skipFrom, skipFrom, hslashes]
    split
    · next hcomment => exact ih _ _ _ hrest (by rwa [if_pos hcomment] at h)
    next hcomment =>
    rw [if_neg hcomment] at h
    split
    · next hblank => exact ih _ _ _ hrest (by rwa [if_pos hblank] at h)
    next hblank =>
    rw [if_neg hblank] at h
    split
    · next hslashes => exact ih _ _ _ hrest (by rwa [if_pos hslashes] at h)
    · rfl

/-- A token is read where more text is put behind, if it does not go on into that. -/
theorem next?_append (h : p.next? = some (t, q))
    (hslash : p.rest.getLast? = some '/' → b.head? ≠ some '/')
    (htoken : ∀ c rest, p.skipGap.rest = c :: rest →
      longestToken c (rest ++ b) = longestToken c rest) :
    (p.append b).next? = some (t, q.append b) := by
  obtain ⟨c, rest, hrest, rfl, rfl⟩ := next?_eq_some_iff.mp h
  have hlongest := htoken c rest hrest
  have hsize : (longestToken c rest).2 ≤ (c :: rest).length := longestToken_size_le c rest
  have hgap : (p.append b).skipGap = p.skipGap.append b := by
    refine skipFrom_append _ _ _ _ hslash ?_
    show p.skipGap.rest ≠ []
    rw [hrest]
    exact List.cons_ne_nil _ _
  have htake : (c :: (rest ++ b)).take (longestToken c rest).2 =
      (c :: rest).take (longestToken c rest).2 := by
    rw [← List.cons_append, List.take_append_of_le_length hsize]
  refine next?_eq_some_iff.mpr ⟨c, rest ++ b, ?_, ?_, ?_⟩
  · rw [hgap, append, hrest, List.cons_append]
  · rw [hgap, hlongest, append, append, move, move, hrest, List.cons_append, htake,
      ← List.cons_append, List.drop_append_of_le_length hsize]
  · rw [hgap, hlongest, htake]
    rfl

/-- A gap up to the end of a text goes on into a text behind that starts with a line feed, even if
the gap ends in a comment. -/
theorem skipFrom_append_newline (inComment : Bool) (rest b : List Char) (offset line : Nat)
    (h : (skipFrom inComment rest offset line).rest = []) :
    skipFrom inComment (rest ++ '\n' :: b) offset line =
      ((finish ⟨rest, offset, line⟩).append ('\n' :: b)).skipGap := by
  induction rest generalizing inComment offset line with
  | nil => cases inComment <;> rfl
  | cons c rest ih =>
    have hslashes : (c == '/' && (rest ++ '\n' :: b).head? == some '/') =
        (c == '/' && rest.head? == some '/') := by
      cases rest <;> rfl
    rw [skipFrom] at h
    rw [List.cons_append, skipFrom, hslashes, ← finish_cons]
    split
    · next hcomment => exact ih _ _ _ (by rwa [if_pos hcomment] at h)
    next hcomment =>
    rw [if_neg hcomment] at h
    split
    · next hblank => exact ih _ _ _ (by rwa [if_pos hblank] at h)
    next hblank =>
    rw [if_neg hblank] at h
    split
    · next hslashes =>
      have hline : lineAfter c line = line := by
        rw [eq_of_beq ((Bool.and_eq_true _ _).mp hslashes).1]
        rfl
      rw [hline]
      exact ih _ _ _ (by rwa [if_pos hslashes] at h)
    · next hslashes =>
      rw [if_neg hslashes] at h
      cases h

theorem tokens_congr (h : p.skipGap = q.skipGap) : p.tokens = q.tokens := by
  rw [tokens_eq, tokens_eq q, next?, next?, h]

/-- The tokens of joined texts, where each token of the first is read as without the second, and so
is the gap at its end. -/
theorem tokens_append (Good : Place → Prop)
    (htoken : ∀ {p q t}, Good p → p.next? = some (t, q) →
      (p.append b).next? = some (t, q.append b) ∧ Good q)
    (hgap : ∀ {p}, Good p → p.next? = none → (p.append b).skipGap = (p.finish.append b).skipGap)
    {p : Place} (hp : Good p) : (p.append b).tokens = p.tokens ++ (p.finish.append b).tokens := by
  induction hn : p.rest.length using Nat.strongRecOn generalizing p with
  | ind n ih =>
    rw [tokens_eq p]
    cases hnext : p.next? with
    | none => exact tokens_congr (hgap hp hnext)
    | some pair =>
      obtain ⟨t, q⟩ := pair
      obtain ⟨hnext', hq⟩ := htoken hp hnext
      rw [tokens_eq, hnext', ← finish_of_next? hnext]
      exact congrArg (t :: ·) (ih _ (hn ▸ length_rest_lt_of_next? hnext) hq rfl)

theorem skipGap_of_next?_eq_none (h : p.next? = none) : p.skipGap.rest = [] := by
  rw [next?] at h
  cases hrest : p.skipGap.rest with
  | nil => rfl
  | cons c rest =>
    rw [hrest] at h
    cases h

/-- The tokens of two texts with a line feed between them. -/
theorem tokens_append_newline (b : List Char)
    (hclosed : ∀ t ∈ p.tokens, t.kind ≠ .invalid .unterminatedString) :
    (p.append ('\n' :: b)).tokens = p.tokens ++ (p.finish.append ('\n' :: b)).tokens := by
  refine tokens_append (fun p => ∀ t ∈ p.tokens, t.kind ≠ .invalid .unterminatedString)
    (fun {p q t} hp hnext => ?_) (fun {p} _ hnext => ?_) hclosed
  · rw [tokens_eq, hnext] at hp
    refine ⟨next?_append hnext (fun _ => by simp) fun c rest hrest => ?_,
      fun u hu => hp u (List.mem_cons_of_mem _ hu)⟩
    refine longestToken_append_cons separates_newline ?_ b
    obtain ⟨c', rest', hrest', -, rfl⟩ := next?_eq_some_iff.mp hnext
    rw [hrest] at hrest'
    cases hrest'
    exact hp _ List.mem_cons_self
  · exact skipFrom_append_newline _ _ _ _ _ (skipGap_of_next?_eq_none hnext)

/-! ### Behind a semicolon -/

theorem suffix_skipFrom (inComment : Bool) (rest : List Char) (offset line : Nat) :
    (skipFrom inComment rest offset line).rest <:+ rest := by
  induction rest generalizing inComment offset line with
  | nil => exact List.suffix_refl _
  | cons c rest ih =>
    rw [skipFrom]
    split
    · exact (ih _ _ _).trans (List.suffix_cons _ _)
    split
    · exact (ih _ _ _).trans (List.suffix_cons _ _)
    split
    · exact (ih _ _ _).trans (List.suffix_cons _ _)
    · exact List.suffix_refl _

/-- The last token is a semicolon at the end of the text. -/
def EndsWithSemicolon (p : Place) : Prop :=
  ∃ ts t, p.tokens = ts ++ [t] ∧ t.kind = .semicolon ∧ t.span.stop = p.finish.offset

theorem suffix_of_next? (h : p.next? = some (t, q)) : q.rest <:+ p.rest := by
  obtain ⟨c, rest, -, rfl, -⟩ := next?_eq_some_iff.mp h
  exact (List.drop_suffix _ _).trans (suffix_skipFrom ..)

/-- Passing a token leaves a text that ends with a semicolon, or nothing if that was the token. -/
theorem EndsWithSemicolon.next (hp : p.EndsWithSemicolon) (h : p.next? = some (t, q)) :
    q.rest = [] ∧ t.kind = .semicolon ∨ q.EndsWithSemicolon := by
  obtain ⟨ts, u, htokens, hkind, hstop⟩ := hp
  rw [tokens_eq, h] at htokens
  cases ts with
  | nil =>
    obtain ⟨rfl, -⟩ := List.cons.inj htokens
    obtain ⟨c, rest, -, -, rfl⟩ := next?_eq_some_iff.mp h
    rw [← finish_of_next? h] at hstop
    have hbytes : (String.ofList q.rest).utf8ByteSize = 0 := by
      have hstop : q.offset = q.offset + (String.ofList q.rest).utf8ByteSize := hstop
      omega
    have hempty : String.ofList q.rest = "" := String.utf8ByteSize_eq_zero_iff.mp hbytes
    exact .inl ⟨by rw [← String.toList_ofList (l := q.rest), hempty]; rfl, hkind⟩
  | cons t' ts =>
    exact .inr ⟨ts, u, (List.cons.inj htokens).2, hkind, hstop.trans (by rw [finish_of_next? h])⟩

theorem getLast?_of_suffix {l l' : List Char} {c : Char} (h : l <:+ l') (hlast : l.getLast? = some c) :
    l'.getLast? = some c := by
  obtain ⟨front, rfl⟩ := h
  rw [List.getLast?_append, hlast]
  rfl

theorem EndsWithSemicolon.ne_none (hp : p.EndsWithSemicolon) : p.next? ≠ none := by
  intro hnone
  obtain ⟨ts, t, htokens, -⟩ := hp
  rw [tokens_eq, hnone] at htokens
  exact List.append_ne_nil_of_right_ne_nil _ (List.cons_ne_nil _ _) htokens.symm

theorem EndsWithSemicolon.getLast? (hp : p.EndsWithSemicolon) : p.rest.getLast? = some ';' := by
  induction hn : p.rest.length using Nat.strongRecOn generalizing p with
  | ind n ih =>
    cases hnext : p.next? with
    | none => exact absurd hnext hp.ne_none
    | some pair =>
      obtain ⟨t, q⟩ := pair
      obtain ⟨hrest, hkind⟩ | hq := hp.next hnext
      · obtain ⟨c, rest, hgap, rfl, rfl⟩ := next?_eq_some_iff.mp hnext
        obtain rfl : c = ';' := eq_of_kind_eq_semicolon hkind
        have hnil : rest = [] := by
          rw [move, hgap] at hrest
          exact hrest
        refine getLast?_of_suffix (suffix_skipFrom false p.rest p.offset p.line) ?_
        show p.skipGap.rest.getLast? = _
        rw [hgap, hnil]
        rfl
      · exact getLast?_of_suffix (suffix_of_next? hnext)
          (ih _ (hn ▸ length_rest_lt_of_next? hnext) hq rfl)

/-- No token of a text that ends with a semicolon goes on into what comes behind it. -/
theorem EndsWithSemicolon.longestToken_append {c : Char} {rest : List Char}
    (hp : p.EndsWithSemicolon) (h : p.next? = some (t, q)) (hrest : p.skipGap.rest = c :: rest)
    (b : List Char) : longestToken c (rest ++ b) = longestToken c rest := by
  have hnext := hp.next h
  obtain ⟨c', rest', hrest', rfl, rfl⟩ := next?_eq_some_iff.mp h
  rw [hrest] at hrest'
  cases hrest'
  rw [move, hrest] at hnext
  obtain ⟨-, hkind⟩ | hq := hnext
  · obtain rfl : c = ';' := eq_of_kind_eq_semicolon hkind
    rfl
  · have hlast : ((c :: rest).drop (longestToken c rest).2).getLast? = some ';' := hq.getLast?
    refine longestToken_append_of_getLast? separates_semicolon (fun hopen => ?_)
      (getLast?_of_suffix ?_ hlast) b
    · have hall : (c :: rest).length ≤ rest.length + 1 := Nat.le_refl _
      rw [size_of_unterminated hopen, List.drop_eq_nil_of_le hall] at hlast
      cases hlast
    · obtain ⟨size, hsize⟩ := Nat.exists_eq_succ_of_ne_zero
        (Nat.ne_of_gt (longestToken_size_pos c rest))
      rw [hsize, List.drop_succ_cons]
      exact List.drop_suffix _ _

/-- The tokens behind a text that ends with a semicolon. -/
theorem tokens_append_of_semicolon (b : List Char) (hp : p.EndsWithSemicolon) :
    (p.append b).tokens = p.tokens ++ (p.finish.append b).tokens := by
  refine tokens_append (fun p => p.rest = [] ∨ p.EndsWithSemicolon)
    (fun {p q t} hp hnext => ?_) (fun {p} hp hnext => ?_) (.inr hp)
  · have hp : p.EndsWithSemicolon := by
      refine hp.resolve_left fun hnil => ?_
      have hlt := length_rest_lt_of_next? hnext
      rw [hnil] at hlt
      exact Nat.not_lt_zero _ hlt
    refine ⟨next?_append hnext (fun hslash => ?_) (fun c rest hrest => ?_),
      (hp.next hnext).imp_left And.left⟩
    · rw [hp.getLast?] at hslash
      cases hslash
    · exact hp.longestToken_append hnext hrest b
  · have hrest : p.rest = [] := hp.resolve_right fun hp => hp.ne_none hnext
    have hfinish : p.finish = p := by
      rw [finish, hrest]
      cases p
      cases hrest
      rfl
    rw [hfinish]

end Place

/-- **The tokens of two texts** with a line feed between them, if the first has no open string. -/
theorem scan_append_newline {a : String} (b : String)
    (hclosed : ∀ t ∈ (scan a).tokens, t.kind ≠ .invalid .unterminatedString) :
    (scan (a ++ "\n" ++ b)).tokens = (scan a).tokens ++
      (scan b).tokens.map (Token.shift (a.utf8ByteSize + 1) (a.toList.count '\n' + 1)) := by
  have hstart : Place.start (a ++ "\n" ++ b) = (Place.start a).append ('\n' :: b.toList) := by
    simp [Place.start, Place.append]
  have hbehind : ((Place.start a).finish.append ('\n' :: b.toList)).skipGap =
      ((Place.start b).shift (a.utf8ByteSize + 1) (a.toList.count '\n' + 1)).skipGap := by
    simp only [Place.finish, Place.start, Place.append, Place.shift, String.ofList_toList,
      List.nil_append, Nat.zero_add]
    rw [← Nat.add_assoc, Nat.add_comm 1]
    rfl
  rw [scan, hstart, Place.tokens_append_newline _ hclosed, Place.tokens_congr hbehind,
    Place.tokens_shift]
  rfl

/-- **The tokens of a text** behind one whose last token is a semicolon at its end. -/
theorem scan_append_of_semicolon {a : String} (b : String) {ts : List Token} {t : Token}
    (htokens : (scan a).tokens = ts ++ [t]) (hkind : t.kind = .semicolon)
    (hstop : t.span.stop = a.utf8ByteSize) : (scan (a ++ b)).tokens = (scan a).tokens ++
      (scan b).tokens.map (Token.shift a.utf8ByteSize (a.toList.count '\n')) := by
  have hstart : Place.start (a ++ b) = (Place.start a).append b.toList := by
    simp [Place.start, Place.append]
  have hbehind : (Place.start a).finish.append b.toList =
      (Place.start b).shift a.utf8ByteSize (a.toList.count '\n') := by
    simp only [Place.finish, Place.start, Place.append, Place.shift, String.ofList_toList,
      List.nil_append]
  have hend : (Place.start a).EndsWithSemicolon := by
    refine ⟨ts, t, htokens, hkind, ?_⟩
    rw [hstop, Place.finish, Place.start, String.ofList_toList, Nat.zero_add]
  rw [scan, hstart, Place.tokens_append_of_semicolon _ hend, hbehind, Place.tokens_shift]
  rfl

end Lox
