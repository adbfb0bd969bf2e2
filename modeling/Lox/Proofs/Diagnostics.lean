import Lox.Proofs.Draft.Maintenance
import Lox.Proofs.Draft.Position

/-!
# The order of diagnostics

Diagnostics come in the order of the source, although some are about the current token and some
about the one just passed, and although recovery may stop at once. What keeps them in order is that
the token just passed can be reported only in a statement that has begun: since the last recovery a
token has been passed, and so it is behind everything reported up to then, or the draft is panicking
and reports nothing.

## Main definitions

* `Diagnostic.IsAt`: what a diagnostic says about its place in the source.
* `Draft.InOrder`: the diagnostics so far are in order, before the tokens still to be read.
* `Draft.Orderly`: this, with what is known of the token just passed.

## Main results

* `Draft.maintained_orderly`: compiling keeps drafts orderly.
* `compile_diagnostics`: the diagnostics of a source are in its order and each is at its place.
-/

namespace Lox

/-- Where the token of a diagnostic starts, and its line. -/
def Diagnostic.position (x : Diagnostic) : Nat × Nat := (x.span.start, x.line)

/-- The diagnostic is about `text`, which stands between `before` and `after` and is a token of the
source or the empty text at its end. -/
structure Diagnostic.IsAt (x : Diagnostic) (source : String) (before text after : List Char) :
    Prop where
  whole : source.toList = before ++ text ++ after
  span : x.span = ⟨byteSize before, byteSize (before ++ text)⟩
  token : (∃ t ∈ (scan source).tokens, t.span = x.span) ∨
    x.span = ⟨source.utf8ByteSize, source.utf8ByteSize⟩
  line : x.line = 1 + (before ++ text).count '\n'
  unlocated : x.location = .unlocated ↔ ∃ cause, x.problem = .lexical cause
  atEnd : x.location = .endOfSource ↔ x.span = ⟨source.utf8ByteSize, source.utf8ByteSize⟩
  lexeme : (∀ cause, x.problem ≠ .lexical cause) →
    x.span ≠ ⟨source.utf8ByteSize, source.utf8ByteSize⟩ → x.location = .lexeme (String.ofList text)

/-- A problem is lexical just if the token it is about is an error. -/
def Problem.Suits (problem : Problem) (t : Token) : Prop :=
  problem.isLexical = t.kind.error?.isSome

theorem Problem.Suits.of_error? {problem : Problem} {t : Token} (ht : t.kind.error? = none)
    (hproblem : problem.isLexical = false) : problem.Suits t := by
  rw [Suits, ht, hproblem]
  rfl

namespace Draft

variable {d : Draft} {source : String} {t : Token} {problem : Problem} {rest : List Token}

/-! ### What has been reported -/

/-- The diagnostics are about tokens of the source, in its order, and none is about a token behind
one of `rest`. -/
structure InOrder (source : String) (rest : List Token) (found : List Diagnostic) : Prop where
  origin : ∀ x ∈ found, ∃ t ∈ sourceTokens source, ∃ problem,
    problem.Suits t ∧ x = .ofToken t problem
  order : found.Pairwise fun x y => x.position ≤ y.position
  rest : ∀ x ∈ found, ∀ t ∈ rest, x.position ≤ t.position

theorem InOrder.mono {found : List Diagnostic} {rest' : List Token} (h : InOrder source rest found)
    (hsubset : rest' ⊆ rest) : InOrder source rest' found :=
  ⟨h.origin, h.order, fun x hx t ht => h.rest x hx t (hsubset ht)⟩

/-- A diagnostic about a token behind those of the others, and before those of `rest`. -/
theorem InOrder.append {found : List Diagnostic} (h : InOrder source rest found)
    (ht : t ∈ sourceTokens source) (hsuits : problem.Suits t)
    (hbefore : ∀ x ∈ found, x.position ≤ t.position) (hrest : ∀ u ∈ rest, t.position ≤ u.position) :
    InOrder source rest (found ++ [.ofToken t problem]) := by
  refine ⟨?_, ?_, ?_⟩
  · intro x hx
    obtain hx | hx := List.mem_append.mp hx
    · exact h.origin x hx
    · exact ⟨t, ht, problem, hsuits, List.mem_singleton.mp hx⟩
  · refine List.pairwise_append.mpr ⟨h.order, List.pairwise_singleton _ _, fun x hx y hy => ?_⟩
    rw [List.mem_singleton.mp hy]
    exact hbefore x hx
  · intro x hx u hu
    obtain hx | hx := List.mem_append.mp hx
    · exact h.rest x hx u hu
    · rw [List.mem_singleton.mp hx]
      exact hrest u hu

/-- A report at a token behind what has been reported keeps the order. -/
theorem InOrder.report (h : InOrder source rest d.diagnostics.toList)
    (ht : t ∈ sourceTokens source) (hsuits : problem.Suits t)
    (hbefore : d.panicking = false → ∀ x ∈ d.diagnostics.toList, x.position ≤ t.position)
    (hrest : ∀ u ∈ rest, t.position ≤ u.position) :
    InOrder source rest (d.report t problem).diagnostics.toList := by
  rw [Draft.report]
  split
  · exact h
  · next hpanic =>
    simp only [Array.toList_push]
    exact h.append ht hsuits (hbefore (Bool.eq_false_iff.mpr hpanic)) hrest

/-- Coming to a token reports errors before it only. -/
theorem InOrder.comeTo {tokens : List Token}
    (h : InOrder source (tokens ++ [d.last]) d.diagnostics.toList)
    (htokens : tokens ++ [d.last] <:+ sourceTokens source) :
    InOrder source (d.comeTo tokens).upcoming (d.comeTo tokens).diagnostics.toList := by
  induction tokens generalizing d with
  | nil => exact h
  | cons t tokens ih =>
    have hpairwise := (pairwise_sourceTokens source).sublist htokens.sublist
    rw [Draft.comeTo]
    split
    · next cause hkind =>
      have hreport : InOrder source (tokens ++ [d.last])
          (d.report t (.lexical cause)).diagnostics.toList := by
        refine (h.mono (List.subset_cons_self _ _)).report (htokens.subset List.mem_cons_self) ?_
          (fun _ x hx => h.rest x hx t List.mem_cons_self)
          fun u hu => List.rel_of_pairwise_cons hpairwise hu
        rw [Problem.Suits, hkind]
        rfl
      have hstep : Step true d (d.report t (.lexical cause)) := .report d t _
      have hlast := hstep.tokens.2
      exact ih (hlast ▸ hreport) (hlast ▸ (List.suffix_cons _ _).trans htokens)
    · exact h

/-! ### Orderly drafts -/

/-- The token just passed is one of the source and no error, and nothing behind it has been
reported. So it may be reported. -/
structure Reportable (source : String) (d : Draft) : Prop where
  mem : d.previous ∈ sourceTokens source
  error? : d.previous.kind.error? = none
  behind : ∀ x ∈ d.diagnostics.toList, x.position ≤ d.previous.position

/-- The diagnostics are in order, and in a statement that has begun the token just passed may be
reported unless the draft is panicking. -/
structure Orderly (source : String) (begun : Bool) (d : Draft) : Prop where
  along : d.Along source
  inOrder : InOrder source d.upcoming d.diagnostics.toList
  reportable : begun = true → d.panicking = false → d.Reportable source

variable {begun : Bool}

/-- Where nothing is reported on the way, passing a token leaves one that may be reported. -/
theorem Orderly.reportable_advance (h : d.Orderly source begun)
    (hdiagnostics : d.advance.diagnostics = d.diagnostics) : d.advance.Reportable source := by
  refine ⟨?_, ?_, ?_⟩
  · rw [previous_advance]
    exact h.along.current_mem
  · rw [previous_advance]
    exact h.along.current
  · rw [previous_advance, hdiagnostics]
    exact fun x hx => h.inOrder.rest x hx _ d.current_mem_upcoming

/-- Only a panicking draft comes past an error. -/
theorem comeTo_of_calm {tokens : List Token} (h : (d.comeTo tokens).panicking = false) :
    (d.comeTo tokens).diagnostics = d.diagnostics := by
  cases tokens with
  | nil => rfl
  | cons t tokens =>
    rw [Draft.comeTo] at h ⊢
    split at h
    · next cause _ =>
      obtain ⟨diagnostics, heq, -⟩ := exists_report_eq d t (.lexical cause)
      have hpanic := panicking_comeTo (d.report t (.lexical cause)) tokens (by rw [heq])
      exact absurd hpanic (Bool.eq_false_iff.mp h)
    · rfl

/-- A panicking draft reports nothing on the way to a token. -/
theorem comeTo_of_panicking (h : d.panicking = true) (tokens : List Token) :
    (d.comeTo tokens).diagnostics = d.diagnostics := by
  induction tokens generalizing d with
  | nil => rfl
  | cons t tokens ih =>
    rw [Draft.comeTo]
    split
    · rw [Draft.report, if_pos h]
      exact ih h
    · rfl

theorem Orderly.advance (h : d.Orderly source begun) : d.advance.Orderly source true := by
  have hbehind : d.ahead.tail ++ [d.last] <:+ d.upcoming :=
    suffix_append_singleton (List.tail_suffix _) _
  have horder := h.inOrder.mono hbehind.subset
  exact ⟨h.along.advance,
    InOrder.comeTo (d := { d with previous := d.current }) horder (hbehind.trans h.along.upcoming),
    fun _ hcalm => h.reportable_advance (comeTo_of_calm hcalm)⟩

/-- A report at a token leaves the draft panicking, so that nothing is asked of the token just
passed. -/
theorem Orderly.report (h : d.Orderly source begun) (ht : t ∈ sourceTokens source)
    (hsuits : problem.Suits t)
    (hbefore : d.panicking = false → ∀ x ∈ d.diagnostics.toList, x.position ≤ t.position)
    (hrest : ∀ u ∈ d.upcoming, t.position ≤ u.position) :
    (d.report t problem).Orderly source true := by
  have horder := h.inOrder.report ht hsuits hbefore hrest
  obtain ⟨diagnostics, heq, -⟩ := exists_report_eq d t problem
  rw [heq] at horder ⊢
  exact ⟨h.along.of_eq rfl rfl rfl, horder, nofun⟩

theorem Orderly.failAtCurrent (h : d.Orderly source begun) (problem : Problem)
    (hproblem : problem.isLexical = false) :
    (d.failAtCurrent problem).Orderly source true :=
  h.report h.along.current_mem (.of_error? h.along.current hproblem)
    (fun _ x hx => h.inOrder.rest x hx _ d.current_mem_upcoming) fun _ hu => h.along.current_le hu

theorem Orderly.failAtPrevious (h : d.Orderly source true) (problem : Problem)
    (hproblem : problem.isLexical = false) :
    (d.failAtPrevious problem).Orderly source true := by
  cases hpanic : d.panicking with
  | true =>
    rw [Draft.failAtPrevious, Draft.report, if_pos hpanic]
    exact h
  | false =>
    have hprevious := h.reportable rfl hpanic
    exact h.report hprevious.mem (.of_error? hprevious.error? hproblem)
      (fun _ => hprevious.behind) h.along.previous

/-- Only tokens and reports have a part in it. -/
theorem Orderly.of_eq {d' : Draft} (h : d.Orderly source begun) (hprevious : d'.previous = d.previous)
    (hahead : d'.ahead = d.ahead) (hlast : d'.last = d.last)
    (hdiagnostics : d'.diagnostics = d.diagnostics) (hpanicking : d'.panicking = d.panicking) :
    d'.Orderly source begun := by
  have hupcoming : d'.upcoming = d.upcoming := by rw [upcoming, upcoming, hahead, hlast]
  refine ⟨h.along.of_eq hprevious hahead hlast, ?_, fun hbegun hcalm => ?_⟩
  · rw [hupcoming, hdiagnostics]
    exact h.inOrder
  · obtain ⟨hmem, herror, hbehind⟩ := h.reportable hbegun (hpanicking ▸ hcalm)
    exact ⟨hprevious ▸ hmem, hprevious ▸ herror, hprevious ▸ hdiagnostics ▸ hbehind⟩

/-! ### Compiling -/

theorem Orderly.settle (h : d.Orderly source begun) : d.Orderly source false :=
  ⟨h.along, h.inOrder, nofun⟩

/-- A draft that panics, or that starts a statement, may have any token just passed. -/
theorem Orderly.quiet (h : d.Orderly source begun) (panicking : Bool)
    (hquiet : begun = true → panicking = true) :
    Orderly source begun { d with panicking } :=
  ⟨h.along.of_eq rfl rfl rfl, h.inOrder, fun hbegun hcalm =>
    absurd (hquiet hbegun) (Bool.eq_false_iff.mp hcalm)⟩

theorem Orderly.addConstant (h : d.Orderly source true) (value : Value) :
    (d.addConstant value).2.Orderly source true := by
  rw [Draft.addConstant]
  split
  · exact h.of_eq rfl rfl rfl rfl rfl
  · exact h.failAtPrevious .tooManyConstants rfl

theorem Orderly.stringConstant (h : d.Orderly source true) (text : String) :
    (d.stringConstant text).2.Orderly source true := by
  have hintern : Orderly source true { d with interner := (d.interner.intern text).2 } :=
    h.of_eq rfl rfl rfl rfl rfl
  have hadd := hintern.addConstant (.string (d.interner.intern text).1)
  rw [Draft.stringConstant]
  simp only
  split
  · exact hintern
  · split
    · next heq =>
      rw [heq] at hadd
      exact hadd.of_eq rfl rfl rfl rfl rfl
    · next heq =>
      rw [heq] at hadd
      exact hadd

theorem Orderly.emitLoop (h : d.Orderly source true) (target : Nat) :
    (d.emitLoop target).Orderly source true := by
  have hop : (d.emitOp .loop).Orderly source true := h.of_eq rfl rfl rfl rfl rfl
  rw [Draft.emitLoop]
  split
  · exact hop.of_eq rfl rfl rfl rfl rfl
  · exact (hop.failAtPrevious .loopTooLarge rfl).of_eq rfl rfl rfl rfl rfl

/-- While the draft is panicking nothing is reported, so that every token it passes may be reported
afterwards. -/
theorem Orderly.passes (h : d.Orderly source true) (hpanic : d.panicking = true)
    (hprevious : d.Reportable source) (count : Nat) :
    (Draft.advance^[count] d).Orderly source true ∧ (Draft.advance^[count] d).Reportable source := by
  have hpassed := Function.Iterate.rec
    (fun e : Draft => e.Orderly source true ∧ e.panicking = true ∧ e.Reportable source)
    ⟨h, hpanic, hprevious⟩
    (fun e ⟨h, hpanic, _⟩ => ⟨h.advance, panicking_advance e hpanic,
      h.reportable_advance (comeTo_of_panicking (d := { e with previous := e.current }) hpanic _)⟩)
    count
  exact ⟨hpassed.1, hpassed.2.2⟩

/-- The token that has been reported may be reported again. -/
theorem Reportable.failAtPrevious (h : d.Reportable source) (problem : Problem) :
    (d.failAtPrevious problem).Reportable source := by
  rw [Draft.failAtPrevious, Draft.report]
  split
  · exact h
  · refine ⟨h.mem, h.error?, ?_⟩
    intro x hx
    rw [Array.toList_push] at hx
    obtain hx | hx := List.mem_append.mp hx
    · exact h.behind x hx
    · rw [List.mem_singleton.mp hx]
      exact le_refl d.previous.position

/-- What is skipped is reported and passed. If nothing was to be reported before, then something may
be reported afterwards. -/
theorem Orderly.skip (h : d.Orderly source true) (count : Nat) : Orderly source true
    { Draft.advance^[count] (d.failAtPrevious .nestingTooDeep) with panicking := d.panicking } := by
  have hreport := h.failAtPrevious .nestingTooDeep rfl
  cases hpanic : d.panicking with
  | true =>
    have hpassed := Function.Iterate.rec (Orderly source true) hreport (fun _ h => h.advance) count
    exact hpassed.quiet true fun _ => rfl
  | false =>
    -- The report makes the draft panic, so that errors on the way are not reported before what the
    -- draft may report when it panics no more.
    obtain ⟨diagnostics, heq, -⟩ := exists_report_eq d d.previous .nestingTooDeep
    have hpanic' : (d.failAtPrevious .nestingTooDeep).panicking = true := by
      rw [Draft.failAtPrevious, heq]
    obtain ⟨horderly, hlast⟩ :=
      hreport.passes hpanic' ((h.reportable rfl hpanic).failAtPrevious _) count
    exact ⟨horderly.along.of_eq rfl rfl rfl, horderly.inOrder, fun _ _ =>
      ⟨hlast.mem, hlast.error?, hlast.behind⟩⟩

/-- **Compiling keeps drafts orderly.** -/
theorem maintained_orderly (source : String) :
    Maintained fun begun _ d => d.Orderly source begun where
  settle h := h.settle
  forget h := h
  advance h := h.advance
  failAtPrevious problem h hproblem := h.failAtPrevious problem hproblem
  failAtCurrent problem h hproblem := h.failAtCurrent problem hproblem
  emitOp _ h _ := h.of_eq rfl rfl rfl rfl rfl
  emitSlot _ _ h _ := h.of_eq rfl rfl rfl rfl rfl
  emitNumber value h := (h.addConstant (.number value)).of_eq rfl rfl rfl rfl rfl
  lookUp u h _ := h.stringConstant u.text
  emitText _ h _ := h.of_eq rfl rfl rfl rfl rfl
  emitJump _ h _ := h.of_eq rfl rfl rfl rfl rfl
  emitLoop target h := h.emitLoop target
  patch _ _ h _ _ := h.of_eq rfl rfl rfl rfl rfl
  calm h := h.settle.quiet false nofun
  skip count h := h.skip count
  stall h := h.of_eq rfl rfl rfl rfl rfl
  scope _ h := h.of_eq rfl rfl rfl rfl rfl

/-- At the start only errors before the first token have been reported. -/
theorem orderly_start (source : String) (maxLocals : Nat) (interner : Interner) :
    (start source maxLocals interner).Orderly source false := by
  have hnone : InOrder source (sourceTokens source) [] := ⟨nofun, .nil, nofun⟩
  exact ⟨along_start source maxLocals interner, hnone.comeTo (List.suffix_refl _), nofun⟩

end Draft

/-! ### Places -/

section Places

variable {source : String} {t : Token} {problem : Problem}

theorem Problem.isLexical_iff : problem.isLexical ↔ ∃ cause, problem = .lexical cause := by
  cases problem <;> simp [isLexical]

theorem Location.ofToken_eq_unlocated_iff : Location.ofToken t = .unlocated ↔ t.kind.error?.isSome := by
  cases hkind : t.kind <;> simp [ofToken, hkind, TokenKind.error?]

theorem Location.ofToken_eq_endOfSource_iff :
    Location.ofToken t = .endOfSource ↔ t.kind = .endOfSource := by
  cases hkind : t.kind <;> simp [ofToken, hkind]

theorem Location.ofToken_eq_lexeme (herror : t.kind.error?.isSome = false)
    (hkind : t.kind ≠ .endOfSource) : Location.ofToken t = .lexeme t.lexeme := by
  rw [ofToken]
  split
  · next h => exact absurd h hkind
  · next h => simp [h, TokenKind.error?] at herror
  · rfl

theorem Problem.Suits.unlocated_iff (h : problem.Suits t) :
    Location.ofToken t = .unlocated ↔ ∃ cause, problem = .lexical cause := by
  rw [Location.ofToken_eq_unlocated_iff, ← h, isLexical_iff]

/-- The end of a source is a token without text. -/
theorem Diagnostic.isAt_endToken (hsuits : problem.Suits (endToken source)) :
    (ofToken (endToken source) problem).IsAt source source.toList [] [] where
  whole := by rw [List.append_nil, List.append_nil]
  span := by
    rw [List.append_nil, byteSize, String.ofList_toList]
    rfl
  token := .inr rfl
  line := by
    rw [List.append_nil]
    rfl
  unlocated := hsuits.unlocated_iff
  atEnd := iff_of_true rfl rfl
  lexeme _ hspan := absurd rfl hspan

/-- A token stands where its diagnostic says. -/
theorem Diagnostic.isAt_of_standsAt {before text after : List Char}
    (ht : t ∈ (scan source).tokens) (hsource : source.toList = before ++ text ++ after)
    (hstands : t.StandsAt before text after) (hsuits : problem.Suits t) :
    (ofToken t problem).IsAt source before text after := by
  have hkind : t.kind ≠ .endOfSource := kind_ne_of_mem_scan ht
  have hspan : t.span ≠ ⟨source.utf8ByteSize, source.utf8ByteSize⟩ := by
    intro hspan
    have hlt := hstands.start_lt_stop
    rw [hspan] at hlt
    exact Nat.lt_irrefl _ hlt
  refine ⟨hsource, hstands.span, .inl ⟨t, ht, rfl⟩, hstands.line, hsuits.unlocated_iff, ?_, ?_⟩
  · exact iff_of_false (mt Location.ofToken_eq_endOfSource_iff.mp hkind) hspan
  · intro hproblem _
    have herror : t.kind.error?.isSome = false := by
      rw [← hsuits, Bool.eq_false_iff]
      exact mt Problem.isLexical_iff.mp (not_exists.mpr hproblem)
    exact hstands.lexeme ▸ Location.ofToken_eq_lexeme herror hkind

/-- **The diagnostics of a source** are in its order, by where they start and by their lines, and
each of them is at its place. -/
theorem compile_diagnostics {limits : Limits} {interner : Interner} {c : Compilation}
    (hc : compile limits interner source = some c) :
    (c.diagnostics.toList.Pairwise fun x y => x.span.start ≤ y.span.start ∧ x.line ≤ y.line) ∧
      ∀ x ∈ c.diagnostics, ∃ before text after, x.IsAt source before text after := by
  obtain ⟨d, horderly, rfl⟩ := (Draft.maintained_orderly source).compile
    (Draft.orderly_start source limits.locals interner) hc
  refine ⟨horderly.inOrder.order, fun x hx => ?_⟩
  obtain ⟨t, ht, problem, hsuits, rfl⟩ := horderly.inOrder.origin x (Array.mem_toList_iff.mpr hx)
  obtain hmem | rfl := mem_sourceTokens.mp ht
  · obtain ⟨before, text, after, hsource, hstands⟩ := (tiles_scan source).exists_standsAt hmem
    exact ⟨before, text, after, Diagnostic.isAt_of_standsAt hmem hsource hstands hsuits⟩
  · exact ⟨source.toList, [], [], Diagnostic.isAt_endToken hsuits⟩

/-- A stray character, a missing semicolon and a missing expression at the end. -/
theorem compile_diagnostics_of_three_lines :
    ∃ c, compile {} .empty "print @ 1\n2; var\nx + = 3; (" = some c ∧ c.diagnostics.size = 3 ∧
      (c.diagnostics.toList.Pairwise fun x y => x.span.start ≤ y.span.start ∧ x.line ≤ y.line) ∧
      ∀ x ∈ c.diagnostics, ∃ before text after,
        x.IsAt "print @ 1\n2; var\nx + = 3; (" before text after := by
  have hcompile : (compile {} .empty "print @ 1\n2; var\nx + = 3; (").any
      (·.diagnostics.size = 3) = true := by decide +kernel
  obtain ⟨c, hc, hsize⟩ := (Option.any_eq_true _ _).mp hcompile
  obtain ⟨horder, hplaces⟩ := compile_diagnostics hc
  exact ⟨c, hc, of_decide_eq_true hsize, horder, hplaces⟩

end Places

end Lox
