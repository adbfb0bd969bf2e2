import Lox.Proofs.Token.Joining
import Lox.Proofs.Token.Patterns

/-!
# The tokens tile the source

Scanning loses nothing: tokens and the gaps between them make up the source, each token is the
longest text that can stand at its place, and spans and lines are counted from the start of the
source.

## Main results

* `Place.exists_gap`: what is passed over before a token is a gap, which goes on as far as it can.
* `tiles_scan`: the tokens of a source tile it.
* `Tiles.exists_standsAt`, `Tiles.pairwise`: what that says of each token, and of their order.
* `scan_tiles`: all of this for whole sources.
-/

namespace Lox

variable {before rest : List Char} {tokens : List Token} {t : Token}

/-! ### Gaps -/

namespace Place

/-- Where a gap ends, neither a blank nor a comment starts. -/
theorem not_skipped_skipFrom (inComment : Bool) (rest : List Char) (offset line : Nat)
    {skipped : List Char} (h : Skipped skipped) :
    ¬skipped <+: (skipFrom inComment rest offset line).rest := by
  induction rest generalizing inComment offset line with
  | nil => cases h <;> simp_all [skipFrom]
  | cons c rest ih =>
    rw [skipFrom]
    split
    · exact ih _ _ _
    split
    · exact ih _ _ _
    next hblank =>
    split
    · exact ih _ _ _
    next hslashes =>
    intro hfront
    cases h with
    | blanks ne_nil all =>
      obtain ⟨tail, rfl, -⟩ := exists_cons_of_front hfront ne_nil
      exact hblank (all c List.mem_cons_self)
    | comment =>
      obtain ⟨rfl, hrest⟩ := List.cons_prefix_cons.mp hfront
      obtain ⟨after, rfl⟩ := hrest
      exact hslashes rfl

/-- What is passed over is a gap. Inside a comment, that goes on up to a line feed or the end, and
behind it comes a gap. -/
theorem exists_gap (inComment : Bool) (rest : List Char) (offset line : Nat) : ∃ body gap,
    rest = body ++ gap ++ (skipFrom inComment rest offset line).rest ∧
      (inComment = false → body = []) ∧ '\n' ∉ body ∧
      (inComment → ∀ c ∈ (gap ++ (skipFrom inComment rest offset line).rest).head?, c = '\n') ∧
      Gap (skipFrom inComment rest offset line).rest gap := by
  induction rest generalizing inComment offset line with
  | nil => exact ⟨[], [], rfl, fun _ => rfl, List.not_mem_nil, by simp [skipFrom], .empty⟩
  | cons c rest ih =>
    rw [skipFrom]
    split
    · next hcomment =>
      by_cases hline : c = '\n'
      · obtain ⟨body, gap, hrest, hbody, -, -, hgap⟩ := ih (c != '\n') (offset + c.utf8Size) (lineAfter c line)
        obtain rfl := hbody (by rw [hline]; rfl)
        subst hline
        exact ⟨[], '\n' :: gap, congrArg _ hrest, fun _ => rfl, List.not_mem_nil, by simp,
          .blank (by decide) hgap⟩
      · obtain ⟨body, gap, hrest, -, hbody, hends, hgap⟩ := ih (c != '\n') (offset + c.utf8Size) (lineAfter c line)
        refine ⟨c :: body, gap, congrArg _ hrest, by simp [hcomment], ?_, ?_, hgap⟩
        · exact fun hmem => (List.mem_cons.mp hmem).elim (fun h => hline h.symm) hbody
        · exact fun _ => hends (bne_iff_ne.mpr hline)
    next hcomment =>
    split
    · next hblank =>
      obtain ⟨body, gap, hrest, hbody, -, -, hgap⟩ := ih false (offset + c.utf8Size) (lineAfter c line)
      obtain rfl := hbody rfl
      exact ⟨[], c :: gap, congrArg _ hrest, fun _ => rfl, List.not_mem_nil, by simp [hcomment],
        .blank hblank hgap⟩
    split
    · next hslashes =>
      obtain ⟨hslash, hhead⟩ := (Bool.and_eq_true _ _).mp hslashes
      obtain ⟨body, gap, hrest, -, hbody, hends, hgap⟩ := ih true (offset + c.utf8Size) line
      generalize (skipFrom true rest (offset + c.utf8Size) line).rest = after at hrest hends hgap ⊢
      cases body with
      | nil =>
        rw [List.nil_append] at hrest
        have hnewline := hends rfl '/' (hrest ▸ eq_of_beq hhead)
        exact absurd hnewline (by decide)
      | cons slash body =>
        rw [hrest] at hhead
        obtain rfl : slash = '/' := Option.some.inj (eq_of_beq hhead)
        obtain rfl := eq_of_beq hslash
        refine ⟨[], '/' :: '/' :: body ++ gap, congrArg _ hrest, fun _ => rfl, List.not_mem_nil,
          by simp [hcomment], .comment (fun hmem => hbody (List.mem_cons_of_mem _ hmem)) (hends rfl) hgap⟩
    · exact ⟨[], [], rfl, fun _ => rfl, List.not_mem_nil, by simp [hcomment], .empty⟩

/-- The text before a token is a gap. -/
theorem exists_gap_skipGap (p : Place) : ∃ gap, p.rest = gap ++ p.skipGap.rest ∧
    Gap p.skipGap.rest gap := by
  obtain ⟨body, gap, hrest, hbody, -, -, hgap⟩ := exists_gap false p.rest p.offset p.line
  obtain rfl := hbody rfl
  exact ⟨gap, hrest, hgap⟩

/-! ### Places in a source -/

/-- The place stands behind `before`. -/
structure Behind (p : Place) (before : List Char) : Prop where
  offset : p.offset = byteSize before
  line : p.line = 1 + before.count '\n'

/-- Passing a part of the text moves the place behind it. -/
theorem Behind.of_finish {p q : Place} {passed : List Char} (h : p.Behind before)
    (hrest : p.rest = passed ++ q.rest) (hfinish : q.finish = p.finish) :
    q.Behind (before ++ passed) := by
  have hoffset := congrArg Place.offset hfinish
  have hline := congrArg Place.line hfinish
  simp only [finish, hrest, List.count_append] at hoffset hline
  rw [← byteSize, ← byteSize, byteSize_append] at hoffset
  refine ⟨?_, ?_⟩
  · rw [byteSize_append, ← h.offset]
    omega
  · rw [List.count_append, ← Nat.add_assoc, ← h.line]
    omega

theorem Behind.skipGap {p : Place} {gap : List Char} (h : p.Behind before)
    (hrest : p.rest = gap ++ p.skipGap.rest) : p.skipGap.Behind (before ++ gap) :=
  h.of_finish hrest (finish_skipGap p)

theorem Behind.move {p : Place} (h : p.Behind before) (size : Nat) :
    (p.move size).Behind (before ++ p.rest.take size) :=
  h.of_finish (List.take_append_drop ..).symm (finish_move size p)

/-- The next token stands behind a gap, and the place after it behind the token. -/
theorem Behind.next? {p q : Place} (h : p.Behind before) (hnext : p.next? = some (t, q)) :
    ∃ gap text, p.rest = gap ++ text ++ q.rest ∧ Gap (text ++ q.rest) gap ∧
      t.StandsAt (before ++ gap) text q.rest ∧ q.Behind (before ++ gap ++ text) := by
  obtain ⟨gap, hrest, hgap⟩ := p.exists_gap_skipGap
  obtain ⟨c, rest, hskip, rfl, rfl⟩ := next?_eq_some_iff.mp hnext
  have hbehind := h.skipGap hrest
  have hafter := hbehind.move (longestToken c rest).2
  have hunskipped : ∀ skipped, Skipped skipped → ¬skipped <+: p.skipGap.rest := fun _ hskipped =>
    not_skipped_skipFrom false p.rest p.offset p.line hskipped
  have htext : (c :: rest).take (longestToken c rest).2 ≠ [] := by
    obtain ⟨size, hsize⟩ := Nat.exists_eq_succ_of_ne_zero
      (Nat.ne_of_gt (longestToken_size_pos c rest))
    rw [hsize, List.take_succ_cons]
    exact List.cons_ne_nil _ _
  refine ⟨gap, (c :: rest).take (longestToken c rest).2, ?_, ?_, ?_, hskip ▸ hafter⟩
  · rw [List.append_assoc, Place.move, hskip, List.take_append_drop, ← hskip]
    exact hrest
  · rw [Place.move, hskip, List.take_append_drop, ← hskip]
    exact hgap
  · refine ⟨htext, rfl, ?_, ?_, ?_, ?_⟩
    · rw [hbehind.offset, hafter.offset, hskip]
    · rw [hafter.line, hskip]
    · rw [Place.move, hskip, List.take_append_drop, ← hskip]
      exact hunskipped
    · rw [Place.move, hskip]
      exact TokenKind.standsAtFront_longestToken c rest

/-- **The tokens from a place on** tile the text from there on. -/
theorem Behind.tiles {p : Place} (h : p.Behind before) : Tiles before p.rest p.tokens := by
  induction hn : p.rest.length using Nat.strongRecOn generalizing p before with
  | ind n ih =>
    rw [tokens_eq]
    cases hnext : p.next? with
    | none =>
      obtain ⟨gap, hrest, hgap⟩ := p.exists_gap_skipGap
      rw [skipGap_of_next?_eq_none hnext] at hrest hgap
      rw [hrest, List.append_nil]
      exact .finish hgap
    | some pair =>
      obtain ⟨t, q⟩ := pair
      obtain ⟨gap, text, hrest, hgap, hstands, hbehind⟩ := h.next? hnext
      have hmore := ih _ (hn ▸ length_rest_lt_of_next? hnext) hbehind rfl
      rw [hrest]
      exact .token hgap hstands hmore

end Place

/-- The tokens of a source tile it. -/
theorem tiles_scan (source : String) : Tiles [] source.toList (scan source).tokens :=
  Place.Behind.tiles (p := Place.start source) ⟨rfl, rfl⟩

/-! ### The order of the tokens -/

theorem Token.StandsAt.start_lt_stop {text after : List Char} (h : t.StandsAt before text after) :
    t.span.start < t.span.stop := by
  rw [h.span, byteSize_append]
  exact Nat.lt_add_of_pos_right (byteSize_pos h.ne_nil)

/-- Each token of a tiling stands somewhere in the text. -/
theorem Tiles.exists_standsAt (h : Tiles before rest tokens) (ht : t ∈ tokens) :
    ∃ passed text after, rest = passed ++ text ++ after ∧
      t.StandsAt (before ++ passed) text after := by
  induction h with
  | finish => exact absurd ht List.not_mem_nil
  | @token before gap text after _ _ _ stands _ ih =>
    obtain rfl | hmem := List.mem_cons.mp ht
    · exact ⟨gap, text, after, rfl, stands⟩
    · obtain ⟨passed, text', after', rfl, hstands⟩ := ih hmem
      refine ⟨gap ++ text ++ passed, text', after', by simp only [List.append_assoc], ?_⟩
      simpa only [List.append_assoc] using hstands

/-- What is behind a text comes after all of it. -/
theorem Tiles.start_le (h : Tiles before rest tokens) (ht : t ∈ tokens) :
    byteSize before ≤ t.span.start ∧ 1 + before.count '\n' ≤ t.line := by
  obtain ⟨passed, text, after, -, hstands⟩ := h.exists_standsAt ht
  rw [hstands.span, hstands.line]
  simp only [byteSize_append, List.count_append]
  omega

/-- The tokens of a tiling are in the order of the text. -/
theorem Tiles.pairwise (h : Tiles before rest tokens) :
    tokens.Pairwise fun t u => t.span.stop ≤ u.span.start ∧ t.line ≤ u.line := by
  induction h with
  | finish => exact .nil
  | token _ stands more ih =>
    refine .cons (fun u hu => ?_) ih
    rw [stands.span, stands.line]
    exact more.start_le hu

/-- **The tokens tile the source.** Each stands at its span, which is not empty, is the longest text
that can stand there, and is on its line; they come in the order of the source, and what is left of
it between them and at the end are gaps. -/
theorem scan_tiles (source : String) :
    Tiles [] source.toList (scan source).tokens ∧
      (∀ t ∈ (scan source).tokens, t.span.start < t.span.stop ∧
        ∃ before text after, source.toList = before ++ text ++ after ∧
          t.StandsAt before text after) ∧
      (scan source).tokens.Pairwise fun t u => t.span.stop ≤ u.span.start := by
  have htiles := tiles_scan source
  refine ⟨htiles, fun t ht => ?_, htiles.pairwise.imp And.left⟩
  obtain ⟨passed, text, after, hsource, hstands⟩ := htiles.exists_standsAt ht
  exact ⟨hstands.start_lt_stop, passed, text, after, hsource, hstands⟩

end Lox
