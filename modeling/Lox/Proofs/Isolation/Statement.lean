import Lox.Proofs.Isolation.Beside
import Lox.Proofs.Lockstep.Expression

/-!
# A statement alone and at its place

A piece of source from `print` or `var` up to its only semicolon is compiled as one declaration,
whatever stands in between. Compiling may come to the semicolon in order, or report a problem and
stop before it, or pass it by though something else was expected. In the first case and the last the
next statement is ahead at once. In the second recovery leads there, since nothing in the piece is a
footing.

## Main definitions

* `UpToSemicolon`: the tokens of a piece behind its first.
* `Draft.Inside`, `Draft.Past`: whether the semicolon is still ahead or has just been passed.
* `Draft.Confined`: drafts side by side inside an expression of a piece.
* `Draft.Ended`: drafts side by side where the declaration has been compiled, before recovery.

## Main results

* `Draft.lockstep_confined`: an expression is compiled inside the piece.
* `Draft.Ended.recovery`: recovery ends behind the piece.
-/

namespace Lox

/-- Tokens up to the only semicolon among them, with no word that starts a statement. -/
structure UpToSemicolon (ts : List Token) : Prop where
  last : ∃ t ∈ ts.getLast?, t.kind = .semicolon
  inner : ∀ t ∈ ts.dropLast, t.kind ≠ .semicolon ∧ Draft.isFooting t.kind = false

instance (ts : List Token) : Decidable (UpToSemicolon ts) :=
  decidable_of_iff ((∃ t ∈ ts.getLast?, t.kind = .semicolon) ∧
    ∀ t ∈ ts.dropLast, t.kind ≠ .semicolon ∧ Draft.isFooting t.kind = false)
    ⟨fun h => ⟨h.1, h.2⟩, fun h => ⟨h.last, h.inner⟩⟩

namespace UpToSemicolon

variable {t : Token} {ts : List Token}

theorem exists_concat (h : UpToSemicolon ts) : ∃ inner last, ts = inner ++ [last] ∧
    last.kind = .semicolon ∧ ∀ t ∈ inner, t.kind ≠ .semicolon ∧ Draft.isFooting t.kind = false := by
  obtain ⟨last, hlast, hkind⟩ := h.last
  obtain ⟨inner, rfl⟩ := List.getLast?_eq_some_iff.mp hlast
  have hinner := h.inner
  rw [List.dropLast_concat] at hinner
  exact ⟨inner, last, rfl, hkind, hinner⟩

theorem ne_nil (h : UpToSemicolon ts) : ts ≠ [] := by
  obtain ⟨inner, last, rfl, -⟩ := h.exists_concat
  exact List.append_ne_nil_of_right_ne_nil _ (List.cons_ne_nil _ _)

/-- The first of the tokens is the semicolon, or the others still lead up to it. -/
theorem cases_cons (h : UpToSemicolon (t :: ts)) :
    t.kind = .semicolon ∧ ts = [] ∨
      t.kind ≠ .semicolon ∧ Draft.isFooting t.kind = false ∧ UpToSemicolon ts := by
  cases ts with
  | nil =>
    obtain ⟨last, hlast, hkind⟩ := h.last
    cases hlast
    exact .inl ⟨hkind, rfl⟩
  | cons u us =>
    obtain ⟨hkind, hfooting⟩ := h.inner t List.mem_cons_self
    exact .inr ⟨hkind, hfooting, h.last, fun v hv => h.inner v (List.mem_cons_of_mem _ hv)⟩

/-- Errors may be passed on the way to the semicolon. -/
theorem comeTo (h : UpToSemicolon ts) (d : Draft) : UpToSemicolon (d.comeTo ts).ahead := by
  induction ts generalizing d with
  | nil => exact absurd rfl h.ne_nil
  | cons t ts ih =>
    rw [Draft.comeTo]
    split
    · next hkind =>
      obtain ⟨hsemicolon, -⟩ | ⟨-, -, hrest⟩ := h.cases_cons
      · rw [hkind] at hsemicolon
        cases hsemicolon
      · exact ih hrest _
    · exact h

end UpToSemicolon

namespace Draft

variable {S : Site} {live : Bool} {d d' e e' : Draft}

/-! ### Inside a piece and past it -/

/-- The semicolon of the piece is still ahead. -/
structure Inside (d : Draft) : Prop where
  ahead : UpToSemicolon d.ahead
  kinds : ∀ t ∈ d.ahead, t.kind ≠ .endOfSource
  previous : d.previous.kind ≠ .semicolon

/-- The semicolon of the piece has just been passed. -/
structure Past (d : Draft) : Prop where
  ahead : d.ahead = []
  previous : d.previous.kind = .semicolon

theorem Inside.ahead_ne_nil (h : Inside d) : d.ahead ≠ [] := h.ahead.ne_nil

/-- A token before the semicolon has been passed. -/
theorem inside_advance {t : Token} {ts : List Token} (hahead : d.ahead = t :: ts)
    (ht : t.kind ≠ .semicolon) (hts : UpToSemicolon ts) (hkinds : ∀ u ∈ ts, u.kind ≠ .endOfSource) :
    Inside d.advance where
  ahead := by
    rw [Draft.advance, hahead]
    exact hts.comeTo _
  kinds u hu := by
    obtain ⟨rest, panicking, diagnostics, heq, hrest⟩ := exists_advance_eq d
    rw [heq] at hu
    rw [hahead] at hrest
    exact hkinds u (hrest.subset hu)
  previous := by rwa [previous_advance, current, hahead]

/-- Passing a token inside the piece leads past it only if that is the semicolon. -/
theorem Inside.advance (h : Inside d) : d.current.kind = .semicolon ∧ Past d.advance ∨
    d.current.kind ≠ .semicolon ∧ isFooting d.current.kind = false ∧ Inside d.advance := by
  obtain ⟨t, ts, hcons⟩ := List.exists_cons_of_ne_nil h.ahead_ne_nil
  have hcurrent : d.current = t := by rw [current, hcons, List.headD_cons]
  have hahead := h.ahead
  have hkinds := h.kinds
  rw [hcons] at hahead hkinds
  obtain ⟨hkind, rfl⟩ | ⟨hkind, hfooting, hrest⟩ := hahead.cases_cons
  · refine .inl ⟨hcurrent ▸ hkind, ?_, by rwa [previous_advance, hcurrent]⟩
    rw [Draft.advance, hcons]
    rfl
  · exact .inr ⟨hcurrent ▸ hkind, hcurrent ▸ hfooting,
      inside_advance hcons hkind hrest fun u hu => hkinds u (List.mem_cons_of_mem _ hu)⟩

theorem Inside.advance_of_ne (h : Inside d) (hkind : d.current.kind ≠ .semicolon) :
    Inside d.advance := by
  obtain ⟨hsemicolon, -⟩ | ⟨-, -, hnext⟩ := h.advance
  · exact absurd hsemicolon hkind
  · exact hnext

/-- A draft that has read nothing more and has not calmed down. -/
structure Holds (d e : Draft) : Prop where
  previous : e.previous = d.previous
  ahead : e.ahead = d.ahead
  panicking : d.panicking = true → e.panicking = true

theorem holds_report (d : Draft) (t : Token) (problem : Problem) :
    Holds d (d.report t problem) := by
  obtain ⟨diagnostics, heq, -⟩ := exists_report_eq d t problem
  rw [heq]
  exact ⟨rfl, rfl, fun _ => rfl⟩

theorem Adds.holds {pool : Pool} {x : Datum} (h : Adds d pool x e) : Holds d e := by
  obtain ⟨interner, strings, constants, panicking, diagnostics, rfl, hadds⟩ := h
  refine ⟨rfl, rfl, fun hpanic => ?_⟩
  obtain ⟨-, -, rfl, -⟩ | ⟨-, -, rfl, -⟩ := hadds
  · exact hpanic
  · rfl

theorem Inside.of_holds (h : Inside d) (he : Holds d e) : Inside e :=
  ⟨he.ahead ▸ h.ahead, he.ahead ▸ h.kinds, he.previous ▸ h.previous⟩

theorem Past.of_holds (h : Past d) (he : Holds d e) : Past e :=
  ⟨he.ahead.trans h.ahead, he.previous ▸ h.previous⟩

/-! ### Expressions -/

/-- Side by side in an expression of the piece. The semicolon has been passed only if that was wrong,
and then no expression starts before recovery. -/
structure Confined (S : Site) (live : Bool) (d d' : Draft) : Prop where
  beside : Beside S d d'
  reach : Inside d ∨ live = false ∧ Past d ∧ d.panicking = true ∧ d'.panicking = true

namespace Confined

theorem of_holds (h : Confined S live d d') (hbeside : Beside S e e') (he : Holds d e)
    (he' : Holds d' e') : Confined S live e e' := by
  refine ⟨hbeside, ?_⟩
  obtain hinside | ⟨hlive, hpast, hpanic, hpanic'⟩ := h.reach
  · exact .inl (hinside.of_holds he)
  · exact .inr ⟨hlive, hpast.of_holds he, he.panicking hpanic, he'.panicking hpanic'⟩

theorem failAtPrevious (h : Confined S live d d') (problem : Problem) :
    Confined S live (d.failAtPrevious problem) (d'.failAtPrevious problem) := by
  refine h.of_holds ?_ (holds_report _ _ _) (holds_report _ _ _)
  rw [Draft.failAtPrevious, Draft.failAtPrevious, h.beside.previous]
  exact h.beside.report _ _

theorem failAtCurrent (h : Confined S live d d') (problem : Problem) :
    Confined S live (d.failAtCurrent problem) (d'.failAtCurrent problem) := by
  refine h.of_holds ?_ (holds_report _ _ _) (holds_report _ _ _)
  obtain hinside | ⟨-, -, hpanic, hpanic'⟩ := h.reach
  · rw [Draft.failAtCurrent, Draft.failAtCurrent, h.beside.current_eq hinside.ahead_ne_nil]
    exact h.beside.report _ _
  · rw [Draft.failAtCurrent, Draft.failAtCurrent, report_of_panicking hpanic,
      report_of_panicking hpanic']
    exact h.beside

/-- Past the piece neither draft finds anything that goes on with an expression. -/
theorem current (h : Confined S live d d') :
    d.current.kind = d'.current.kind ∨
      d.current.kind = .endOfSource ∧ d'.current.kind ∈ [.endOfSource, .kwPrint, .kwVar] := by
  obtain hinside | ⟨-, hpast, -⟩ := h.reach
  · rw [h.beside.current_eq hinside.ahead_ne_nil]
    exact .inl rfl
  · exact .inr (h.beside.current_of_nil hpast.ahead)

theorem check (h : Confined S live d d') {kind : TokenKind}
    (hkind : kind ∉ [.endOfSource, .kwPrint, .kwVar]) : d.check kind = d'.check kind := by
  rw [Draft.check, Draft.check]
  obtain heq | ⟨hend, hother⟩ := h.current
  · rw [heq]
  · have hne : d.current.kind ≠ kind := by
      rintro rfl
      exact hkind (hend ▸ List.mem_cons_self)
    have hne' : d'.current.kind ≠ kind := by
      rintro rfl
      exact hkind hother
    rw [beq_eq_false_iff_ne.mpr hne, beq_eq_false_iff_ne.mpr hne']

theorem connective (h : Confined S live d d') :
    d.current.kind.connective? = d'.current.kind.connective? := by
  have hnone : ∀ kind ∈ [TokenKind.endOfSource, .kwPrint, .kwVar], kind.connective? = none := by
    decide
  obtain heq | ⟨hend, hother⟩ := h.current
  · rw [heq]
  · rw [hend, hnone _ hother]
    rfl

/-- Where something is passed that is not the semicolon, an expression may start again. -/
theorem advance (h : Confined S live d d')
    (hkind : d.current.kind ≠ .semicolon ∧ d.current.kind ≠ .endOfSource) :
    Confined S true d.advance d'.advance := by
  obtain hinside | ⟨-, hpast, -⟩ := h.reach
  · exact ⟨h.beside.advance hinside.ahead_ne_nil, .inl (hinside.advance_of_ne hkind.1)⟩
  · exact absurd (h.beside.current_of_nil hpast.ahead).1 hkind.2

theorem inside (h : Confined S true d d') : Inside d :=
  h.reach.resolve_right (by rintro ⟨⟨⟩, -⟩)

/-- What starts no expression is passed and reported, even if it is the semicolon. -/
theorem not_opening (h : Confined S true d d') (problem : Problem) :
    Confined S false (d.advance.failAtPrevious problem) (d'.advance.failAtPrevious problem) := by
  have hnext := h.beside.advance h.inside.ahead_ne_nil
  obtain ⟨-, hpast⟩ | ⟨-, -, hinside⟩ := h.inside.advance
  · rw [Draft.failAtPrevious, Draft.failAtPrevious, hnext.previous]
    exact ⟨hnext.report _ _, .inr ⟨rfl, hpast.of_holds (holds_report _ _ _),
      panicking_report _ _ _, panicking_report _ _ _⟩⟩
  · exact failAtPrevious ⟨hnext, .inl hinside⟩ problem

theorem stringConstant (h : Confined S live d d') (text : String) :
    Confined S live (d.stringConstant text).2 (d'.stringConstant text).2 := by
  obtain ⟨pool, pool', hpool, hpool', -⟩ := h.beside.pools
  exact h.of_holds
    (h.beside.adds (fun _ hpool => hpool.adds_stringConstant text) fun _ hpool =>
      hpool.adds_stringConstant text)
    (hpool.adds_stringConstant text).holds (hpool'.adds_stringConstant text).holds

theorem number (h : Confined S live d d') (value : Float) :
    Confined S live (d.addConstant (.number value)).2 (d'.addConstant (.number value)).2 := by
  obtain ⟨pool, pool', hpool, hpool', -⟩ := h.beside.pools
  exact h.of_holds
    (h.beside.adds (fun _ hpool => hpool.adds_number value) fun _ hpool =>
      hpool.adds_number value)
    (hpool.adds_number value).holds (hpool'.adds_number value).holds

theorem emitByte (h : Confined S live d d') (byte byte' : UInt8) :
    Confined S live (d.emitByte byte) (d'.emitByte byte') :=
  h.of_holds (h.beside.emitByte _ _) ⟨rfl, rfl, id⟩ ⟨rfl, rfl, id⟩

end Confined

/-- **Expressions of a piece** are compiled side by side. -/
theorem lockstep_confined (S : Site) : Lockstep (Confined S) S.code fun _ _ => True where
  weaken h := ⟨h.beside, h.reach.imp_right fun hpast => ⟨rfl, hpast.2⟩⟩
  operand _ := trivial
  last h := h.beside.last
  previous h := by
    rw [h.beside.previous]
    exact ⟨rfl, rfl⟩
  connective h := h.connective
  check kind h hkind := h.check (by rcases hkind with rfl | rfl <;> decide)
  scope h := h.beside.scope.1.trans h.beside.scope.2.symm
  size h := h.beside.size
  start h := by
    refine ⟨by rw [h.beside.current_eq h.inside.ahead_ne_nil]; rfl, ?_⟩
    split
    · next hopening =>
      exact h.advance ⟨by intro heq; simp [heq, TokenKind.opening?] at hopening,
        by intro heq; simp [heq, TokenKind.opening?] at hopening⟩
    · exact h.not_opening _
  advance {_ d _} h hkind := by
    have hne : ∀ kind ∈ [TokenKind.semicolon, .endOfSource],
        ¬(kind.connective?.isSome ∨ kind = .equal ∨ kind = .rightParen) := by decide
    have hkind : d.current.kind.connective?.isSome ∨ d.current.kind = .equal ∨
        d.current.kind = .rightParen := by simpa [Draft.check] using hkind
    exact h.advance ⟨by intro heq; exact hne _ (by decide) (heq ▸ hkind),
      by intro heq; exact hne _ (by decide) (heq ▸ hkind)⟩
  failAtPrevious problem h _ := h.failAtPrevious problem
  failAtCurrent problem h _ := h.failAtCurrent problem
  emitByte h _ := h.emitByte _ _
  patch offset distance h :=
    h.of_holds (h.beside.patch _ _ _) ⟨rfl, rfl, id⟩ ⟨rfl, rfl, id⟩
  stringConstant text h := ⟨trivial, h.stringConstant text⟩
  number value h := ⟨trivial, h.number value⟩

theorem Confined.expression (h : Confined S true d d') (levels : Nat) :
    Confined S false (d.expression levels) (d'.expression levels) :=
  (lockstep_confined S).expressionAt levels .assignment h

/-! ### Statements -/

/-- Side by side where the declaration has been compiled: past the piece, or inside it with a problem
to recover from. -/
structure Ended (S : Site) (d d' : Draft) : Prop where
  beside : Beside S d d'
  reach : Past d ∨ Inside d ∧ d.panicking = true ∧ d'.panicking = true

theorem Ended.emitByte (h : Ended S d d') (byte byte' : UInt8) :
    Ended S (d.emitByte byte) (d'.emitByte byte') := by
  refine ⟨h.beside.emitByte _ _, ?_⟩
  obtain hpast | ⟨hinside, hpanic⟩ := h.reach
  · exact .inl (hpast.of_holds ⟨rfl, rfl, id⟩)
  · exact .inr ⟨hinside.of_holds ⟨rfl, rfl, id⟩, hpanic⟩

/-- **The semicolon at the end of the piece.** If it is missing here, that is reported. -/
theorem Confined.expect_semicolon (h : Confined S false d d') (what : Expectation) :
    Ended S (d.expect .semicolon what) (d'.expect .semicolon what) := by
  rw [expect, expect, ← h.check (by decide)]
  split
  · next hcheck =>
    have hkind : d.current.kind = .semicolon := eq_of_beq hcheck
    obtain hinside | ⟨-, hpast, -⟩ := h.reach
    · refine ⟨h.beside.advance hinside.ahead_ne_nil, .inl ?_⟩
      obtain ⟨-, hpast⟩ | ⟨hne, -⟩ := hinside.advance
      · exact hpast
      · exact absurd hkind hne
    · rw [(h.beside.current_of_nil hpast.ahead).1] at hkind
      cases hkind
  · have hfail := h.failAtCurrent (.expected what)
    refine ⟨hfail.beside, ?_⟩
    obtain hinside | ⟨-, hpast, -⟩ := hfail.reach
    · exact .inr ⟨hinside, panicking_report _ _ _, panicking_report _ _ _⟩
    · exact .inl hpast

theorem Confined.printStatement (h : Confined S true d d') (levels : Nat) :
    Ended S (d.printStatement levels) (d'.printStatement levels) :=
  ((h.expression levels).expect_semicolon .endOfPrint).emitByte _ _

theorem Confined.initialValue (h : Confined S true d d') (levels : Nat) :
    Ended S (d.initialValue levels) (d'.initialValue levels) := by
  rw [Draft.initialValue, Draft.initialValue, ← h.check (by decide)]
  refine Confined.expect_semicolon ?_ _
  split
  · next hcheck =>
    have hkind : d.current.kind = .equal := eq_of_beq hcheck
    exact (h.advance (by rw [hkind]; decide)).expression levels
  · exact (lockstep_confined S).weaken (h.emitByte _ _)

theorem Confined.expect_identifier (h : Confined S true d d') (what : Expectation) :
    Confined S true (d.expect .identifier what) (d'.expect .identifier what) := by
  rw [expect, expect, ← h.check (by decide)]
  split
  · next hcheck =>
    have hkind : d.current.kind = .identifier := eq_of_beq hcheck
    exact h.advance (by rw [hkind]; decide)
  · exact h.failAtCurrent _

theorem Confined.varDeclaration (h : Confined S true d d') (levels : Nat) :
    Ended S (d.varDeclaration levels) (d'.varDeclaration levels) := by
  have hname := h.expect_identifier .variableName
  have hlexeme : (d'.expect .identifier .variableName).previous.lexeme =
      (d.expect .identifier .variableName).previous.lexeme := by
    rw [hname.beside.previous]
    rfl
  rw [Draft.varDeclaration, Draft.varDeclaration, hname.beside.scope.1, hname.beside.scope.2, hlexeme]
  exact ((((hname.stringConstant _).initialValue levels).emitByte _ _).emitByte _ _)

/-! ### Recovery -/

/-- Inside the piece nothing but the semicolon ends recovery. -/
theorem Beside.seekFooting (h : Beside S d d') (hinside : Inside d) {bound bound' : List Token}
    (hbound : d.ahead.length ≤ bound.length) (hbound' : d.ahead.length ≤ bound'.length) :
    Beside S (seekFooting bound d) (seekFooting bound' d') ∧ (seekFooting bound d).ahead = [] := by
  induction bound generalizing bound' d d' with
  | nil => exact absurd (List.eq_nil_of_length_eq_zero (Nat.le_zero.mp hbound)) hinside.ahead_ne_nil
  | cons t bound ih =>
    have hlt := ahead_advance_lt hinside.ahead_ne_nil
    obtain ⟨t', bound', rfl⟩ : ∃ t' more, bound' = t' :: more := by
      refine List.exists_cons_of_ne_nil ?_
      rintro rfl
      exact absurd (Nat.lt_of_lt_of_le hlt hbound') (Nat.not_lt_zero _)
    rw [List.length_cons] at hbound hbound'
    have hcurrent : d.current.kind ≠ .endOfSource := by
      obtain ⟨u, us, hcons⟩ := List.exists_cons_of_ne_nil hinside.ahead_ne_nil
      rw [current, hcons]
      exact hinside.kinds u (hcons ▸ List.mem_cons_self)
    have hnext := h.advance hinside.ahead_ne_nil
    have hfooting : isFooting d.current.kind = false := by
      obtain ⟨hkind, -⟩ | ⟨-, hfooting, -⟩ := hinside.advance
      · rw [hkind]
        rfl
      · exact hfooting
    have hgo : ¬(d.previous.kind = .semicolon ∨ isFooting d.current.kind = true) := by
      rw [hfooting]
      exact not_or.mpr ⟨hinside.previous, Bool.false_ne_true⟩
    have hsame : d'.current.kind = d.current.kind ∧ d'.previous.kind = d.previous.kind := by
      rw [h.current_eq hinside.ahead_ne_nil, h.previous]
      exact ⟨rfl, rfl⟩
    rw [seekFooting_cons t bound hcurrent hgo,
      seekFooting_cons t' bound' (hsame.1 ▸ hcurrent) (by rw [hsame.1, hsame.2]; exact hgo)]
    obtain ⟨-, hpast⟩ | ⟨-, -, hinside⟩ := hinside.advance
    · have hpast' : d'.advance.previous.kind = .semicolon := by
        rw [hnext.previous]
        exact hpast.previous
      rw [seekFooting_eq_self bound (.inl hpast.previous),
        seekFooting_eq_self bound' (.inl hpast')]
      exact ⟨hnext, hpast.ahead⟩
    · exact ih hnext hinside (by omega) (by omega)

/-- Behind a semicolon recovery reads nothing. -/
theorem recovery_of_semicolon (h : d.previous.kind = .semicolon) :
    (if d.panicking then d.synchronize else d) = { d with panicking := false } := by
  cases hpanic : d.panicking with
  | true => exact seekFooting_eq_self _ (.inl h)
  | false => rw [if_neg Bool.false_ne_true, ← hpanic]

/-- **Recovery** ends behind the piece, in both drafts. -/
theorem Ended.recovery (h : Ended S d d') :
    Beside (S.after d d') (if d.panicking then d.synchronize else d)
        (if d'.panicking then d'.synchronize else d') ∧
      (if d.panicking then d.synchronize else d).ahead = [] := by
  obtain hpast | ⟨hinside, hpanic, hpanic'⟩ := h.reach
  · have hprevious : d'.previous.kind = .semicolon := by
      rw [h.beside.previous]
      exact hpast.previous
    rw [recovery_of_semicolon hpast.previous, recovery_of_semicolon hprevious]
    exact ⟨h.beside.calm, hpast.ahead⟩
  · rw [if_pos hpanic, if_pos hpanic']
    have hahead : d.ahead.length ≤ d'.ahead.length := by
      rw [h.beside.ahead, List.length_append, List.length_map]
      exact Nat.le_add_right _ _
    exact h.beside.calm.seekFooting ⟨hinside.ahead, hinside.kinds, hinside.previous⟩
      (Nat.le_refl _) hahead

/-- Recovery writes nothing. -/
theorem chunk_recovery (d : Draft) : (if d.panicking then d.synchronize else d).chunk = d.chunk := by
  have hseek : ∀ (bound : List Token) (d : Draft), (seekFooting bound d).chunk = d.chunk := by
    intro bound
    induction bound with
    | nil => exact fun _ => rfl
    | cons t bound ih =>
      intro d
      rw [seekFooting]
      split
      · rfl
      · obtain ⟨rest, panicking, diagnostics, heq, -⟩ := exists_advance_eq d
        rw [ih, heq]
  split
  · exact hseek _ _
  · rfl

/-- Recovery comes upon a problem only if it is needed. -/
theorem panicking_of_recovery (h : (if d.panicking then d.synchronize else d).panicking = true) :
    d.panicking = true := by
  cases hpanic : d.panicking with
  | true => rfl
  | false =>
    rw [hpanic, if_neg Bool.false_ne_true, hpanic] at h
    cases h

/-- Recovery comes upon no problem if no error is ahead. -/
theorem recovery_calm (h : ∀ t ∈ d.ahead, t.kind.error? = none) :
    (if d.panicking then d.synchronize else d).panicking = false := by
  have hseek : ∀ (bound : List Token) (d : Draft), (∀ t ∈ d.ahead, t.kind.error? = none) →
      (seekFooting bound d).panicking = d.panicking := by
    intro bound
    induction bound with
    | nil => exact fun _ _ => rfl
    | cons t bound ih =>
      intro d hd
      rw [seekFooting]
      split
      · rfl
      · have hadvance : d.advance = { d with previous := d.current, ahead := d.ahead.tail } :=
          comeTo_eq_of_error? _ _ fun t ht => hd t (List.mem_of_mem_tail (List.mem_of_mem_head? ht))
        rw [hadvance, ih _ fun t ht => hd t (List.mem_of_mem_tail ht)]
  cases hpanic : d.panicking with
  | true => exact hseek _ _ h
  | false => rw [if_neg Bool.false_ne_true, hpanic]

end Draft

end Lox
