import Lox.Proofs.Draft.Steps
import Lox.Syntax.Grammar

/-!
# What compiling keeps

Consequences of `Steps` for drafts in general. Reports are never taken back, tokens are only passed
and never put back, and a panicking draft has reported something. So a draft that has reported
nothing in the end has never been panicking on the way, and every check on the way has succeeded.

## Main definitions

* `blank`: the draft of a source before its first token.
* `Clean`: nothing has been reported.
* `Token.IsProper`: a token of a source that is neither an error nor the end.
* `Proper`: only proper tokens are ahead, and a panicking draft is not clean.

## Main results

* `Steps.clean`, `Steps.reported`, `Steps.stalled`, `Steps.tokens`: what any number of steps keeps.
* `patch?_of_emitJump`: patching a jump cannot fail.
* `Steps.proper`: a proper draft stays proper.
* `Proper.advance_eq`: a proper draft reports nothing when it passes a token.
-/

namespace Lox

/-- A token of a source that is neither an error nor the end. A string stands between quotes. -/
structure Token.IsProper (t : Token) : Prop where
  error? : t.kind.error? = none
  kind_ne : t.kind ≠ .endOfSource
  quoted : t.kind = .string → ∃ text, t.lexeme = quoted text

namespace Draft

variable {d d' : Draft}

/-- Nothing has been reported. -/
def Clean (d : Draft) : Prop := d.diagnostics = #[]

/-! ### Coming to a token -/

section ComeTo

variable (d : Draft) (tokens : List Token)

@[simp] theorem previous_report (t : Token) (problem : Problem) :
    (d.report t problem).previous = d.previous := by rw [report]; split <;> rfl

/-- Coming to a token changes nothing but the tokens ahead and what is reported. -/
theorem exists_comeTo_eq : ∃ rest panicking diagnostics,
    d.comeTo tokens = { d with ahead := rest, panicking, diagnostics } ∧ rest <:+ tokens := by
  induction tokens generalizing d with
  | nil => exact ⟨[], d.panicking, d.diagnostics, rfl, List.suffix_refl _⟩
  | cons t tokens ih =>
    rw [comeTo]
    split
    · next cause _ =>
      obtain ⟨rest, panicking, diagnostics, heq, hrest⟩ := ih (d.report t (.lexical cause))
      refine ⟨rest, panicking, diagnostics, ?_, hrest.trans (List.suffix_cons t tokens)⟩
      rw [heq, report]
      split <;> rfl
    · exact ⟨t :: tokens, d.panicking, d.diagnostics, rfl, List.suffix_refl _⟩

theorem exists_advance_eq : ∃ rest panicking diagnostics,
    d.advance = { d with previous := d.current, ahead := rest, panicking, diagnostics } ∧
      rest <:+ d.ahead.tail :=
  exists_comeTo_eq { d with previous := d.current } d.ahead.tail

/-- A token that is no error is come to at once. -/
theorem comeTo_eq_of_error? (h : ∀ t ∈ tokens.head?, t.kind.error? = none) :
    d.comeTo tokens = { d with ahead := tokens } := by
  cases tokens with
  | nil => rfl
  | cons t tokens =>
    have ht := h t rfl
    rw [comeTo]
    split
    · next hkind => simp [hkind, TokenKind.error?] at ht
    · rfl

end ComeTo

@[simp] theorem previous_advance (d : Draft) : d.advance.previous = d.current := by
  obtain ⟨rest, panicking, diagnostics, heq, -⟩ := exists_advance_eq d
  rw [heq]

theorem kind_of_check {kind : TokenKind} (h : d.check kind = true) : d.current.kind = kind :=
  eq_of_beq h

/-! ### The start of a source -/

/-- The draft of a source before its first token. -/
def blank (source : String) (maxLocals : Nat) (interner : Interner) : Draft :=
  { previous := .atEnd 0 1, ahead := [], last := (scan source).last, panicking := false,
    diagnostics := #[], chunk := .empty, scope := .start maxLocals, strings := .empty, interner,
    stalled := false }

/-- A source starts at its first token that is no error. -/
theorem exists_start_eq (source : String) (maxLocals : Nat) (interner : Interner) :
    ∃ ahead panicking diagnostics, start source maxLocals interner =
      { blank source maxLocals interner with ahead, panicking, diagnostics } ∧
        ahead <:+ (scan source).tokens :=
  exists_comeTo_eq (blank source maxLocals interner) (scan source).tokens

/-! ### Reports -/

theorem report_of_panicking (h : d.panicking = true) (t : Token) (problem : Problem) :
    d.report t problem = d := if_pos h

theorem report_of_calm (h : d.panicking = false) (t : Token) (problem : Problem) :
    d.report t problem =
      { d with panicking := true, diagnostics := d.diagnostics.push (.ofToken t problem) } :=
  if_neg (Bool.eq_false_iff.mp h)

/-- A report leaves the draft panicking, and is one more unless the draft was so before. -/
theorem exists_report_eq (d : Draft) (token : Token) (problem : Problem) :
    ∃ diagnostics : Array Diagnostic,
      d.report token problem = { d with panicking := true, diagnostics } ∧
      diagnostics.size = d.diagnostics.size + if d.panicking then 0 else 1 := by
  rw [report]
  cases hpanic : d.panicking with
  | true => exact ⟨d.diagnostics, by simp only [if_true, ← hpanic], rfl⟩
  | false => exact ⟨_, rfl, Array.size_push ..⟩

theorem panicking_report (d : Draft) (t : Token) (problem : Problem) :
    (d.report t problem).panicking = true := by
  obtain ⟨diagnostics, heq, -⟩ := exists_report_eq d t problem
  rw [heq]

/-- A report is the last of those made, or is suppressed. -/
theorem report_clean_iff {t : Token} {problem : Problem} :
    (d.report t problem).Clean ↔ d.Clean ∧ d.panicking = true := by
  rw [report]
  split
  · next h => exact ⟨fun hclean => ⟨hclean, h⟩, And.left⟩
  · next h =>
    refine ⟨fun hclean => ?_, fun hboth => absurd hboth.2 h⟩
    simp [Clean] at hclean

theorem comeTo_clean {tokens : List Token} (h : (d.comeTo tokens).Clean) : d.Clean := by
  induction tokens generalizing d with
  | nil => exact h
  | cons t tokens ih =>
    rw [comeTo] at h
    split at h
    · exact (report_clean_iff.mp (ih h)).1
    · exact h

/-- Reports are never taken back. -/
theorem Step.clean (h : Step true d d') (hclean : d'.Clean) : d.Clean := by
  cases h with
  | report t problem => exact (report_clean_iff.mp hclean).1
  | advance => exact comeTo_clean (d := { d with previous := d.current }) hclean
  | calm | stall | write | patch | constant | intern | remember | scope => exact hclean

/-- Reports are never taken back. -/
theorem Steps.clean (h : Steps true d d') (hclean : d'.Clean) : d.Clean := by
  induction h with
  | refl => exact hclean
  | tail _ hstep ih => exact ih (hstep.clean hclean)

/-- A report comes behind those made before. -/
theorem reported_report (d : Draft) (t : Token) (problem : Problem) :
    d.diagnostics.toList <+: (d.report t problem).diagnostics.toList := by
  rw [report]
  split
  · exact List.prefix_refl _
  · rw [Array.toList_push]
    exact List.prefix_append _ _

theorem reported_comeTo (d : Draft) (tokens : List Token) :
    d.diagnostics.toList <+: (d.comeTo tokens).diagnostics.toList := by
  induction tokens generalizing d with
  | nil => exact List.prefix_refl _
  | cons t tokens ih =>
    rw [comeTo]
    split
    · exact (reported_report d t _).trans (ih _)
    · exact List.prefix_refl _

theorem Step.reported (h : Step true d d') : d.diagnostics.toList <+: d'.diagnostics.toList := by
  cases h with
  | report t problem => exact reported_report d t problem
  | advance => exact reported_comeTo { d with previous := d.current } _
  | calm | stall | write | patch | constant | intern | remember | scope => exact List.prefix_refl _

/-- What has been reported stays where it is in the list. -/
theorem Steps.reported (h : Steps true d d') : d.diagnostics.toList <+: d'.diagnostics.toList := by
  induction h with
  | refl => exact List.prefix_refl _
  | tail _ hstep ih => exact ih.trans hstep.reported

/-! ### Constants -/

/-- Adding a constant changes nothing but the pool and what is reported. -/
theorem exists_addConstant_eq (d : Draft) (value : Value) : ∃ constants panicking diagnostics,
    (d.addConstant value).2 = { d with chunk := { d.chunk with constants }, panicking, diagnostics } := by
  rw [addConstant]
  simp only
  split
  · exact ⟨_, d.panicking, d.diagnostics, rfl⟩
  · obtain ⟨diagnostics, heq, -⟩ := exists_report_eq d d.previous .tooManyConstants
    exact ⟨d.chunk.constants, true, diagnostics, heq⟩

/-- Adding a text changes the table of the strings and the interner as well. -/
theorem exists_stringConstant_eq (d : Draft) (text : String) :
    ∃ constants panicking diagnostics strings interner, (d.stringConstant text).2 =
      { d with chunk := { d.chunk with constants }, panicking, diagnostics, strings, interner } := by
  obtain ⟨constants, panicking, diagnostics, heq⟩ := exists_addConstant_eq
    { d with interner := (d.interner.intern text).2 } (.string (d.interner.intern text).1)
  rw [stringConstant]
  simp only
  split
  · exact ⟨d.chunk.constants, d.panicking, d.diagnostics, d.strings, _, rfl⟩
  · split
    · next index e hadd =>
      rw [hadd] at heq
      obtain rfl : e = _ := heq
      exact ⟨constants, panicking, diagnostics, _, _, rfl⟩
    · next hadd =>
      rw [hadd] at heq
      exact ⟨constants, panicking, diagnostics, d.strings, _, heq⟩

/-- A string is interned, whether it fits or not. -/
theorem interner_stringConstant (d : Draft) (text : String) :
    (d.stringConstant text).2.interner = (d.interner.intern text).2 := by
  obtain ⟨constants, panicking, diagnostics, heq⟩ := exists_addConstant_eq
    { d with interner := (d.interner.intern text).2 } (.string (d.interner.intern text).1)
  rw [stringConstant]
  simp only
  split
  · rfl
  · split
    · next hadd =>
      rw [hadd] at heq
      obtain rfl := heq
      rfl
    · next hadd =>
      rw [hadd] at heq
      obtain rfl := heq
      rfl

/-! ### Other fields -/

/-- A step changes the tokens ahead by passing some, and never the end. -/
theorem Step.tokens (h : Step true d d') : d'.ahead <:+ d.ahead ∧ d'.last = d.last := by
  cases h with
  | report t problem =>
    rw [Draft.report]
    split <;> exact ⟨List.suffix_refl _, rfl⟩
  | advance =>
    obtain ⟨rest, panicking, diagnostics, heq, hrest⟩ := exists_advance_eq d
    rw [heq]
    exact ⟨hrest.trans (List.tail_suffix _), rfl⟩
  | calm | stall | write | patch | constant | intern | remember | scope =>
    exact ⟨List.suffix_refl _, rfl⟩

theorem Steps.tokens (h : Steps true d d') : d'.ahead <:+ d.ahead ∧ d'.last = d.last := by
  induction h with
  | refl => exact ⟨List.suffix_refl _, rfl⟩
  | tail _ hstep ih =>
    exact ⟨hstep.tokens.1.trans ih.1, hstep.tokens.2.trans ih.2⟩

/-- Where the end of the source is not current, some token is ahead. -/
theorem ahead_ne_nil (hlast : d.last.kind = .endOfSource) (hcurrent : d.current.kind ≠ .endOfSource) :
    d.ahead ≠ [] := by
  intro hnil
  rw [current, hnil, List.headD_nil] at hcurrent
  exact hcurrent hlast

theorem ahead_advance_lt (hahead : d.ahead ≠ []) : d.advance.ahead.length < d.ahead.length := by
  obtain ⟨rest, panicking, diagnostics, heq, hrest⟩ := exists_advance_eq d
  have hpos : 0 < d.ahead.length := List.length_pos_iff.mpr hahead
  have hle := hrest.length_le
  rw [List.length_tail] at hle
  rw [heq]
  simp only
  omega

theorem ahead_lt_of_steps {d' : Draft} (hahead : d.ahead ≠ []) (h : Steps true d.advance d') :
    d'.ahead.length < d.ahead.length :=
  Nat.lt_of_le_of_lt h.tokens.1.length_le (ahead_advance_lt hahead)

/-- Once a sequence of declarations has turned out to be endless, it stays so. -/
theorem Step.stalled (h : Step true d d') (hstalled : d.stalled = true) : d'.stalled = true := by
  cases h with
  | report t problem =>
    rw [Draft.report]
    split <;> exact hstalled
  | advance =>
    obtain ⟨rest, panicking, diagnostics, heq, -⟩ := exists_advance_eq d
    rw [heq]
    exact hstalled
  | stall => rfl
  | calm | write | patch | constant | intern | remember | scope => exact hstalled

theorem Steps.stalled (h : Steps true d d') (hstalled : d.stalled = true) : d'.stalled = true := by
  induction h with
  | refl => exact hstalled
  | tail _ hstep ih => exact hstep.stalled ih

/-- Without stalling, no sequence of declarations turns out to be endless. -/
theorem Step.stalled_eq (h : Step false d d') : d'.stalled = d.stalled := by
  cases h with
  | report t problem =>
    rw [Draft.report]
    split <;> rfl
  | advance =>
    obtain ⟨rest, panicking, diagnostics, heq, -⟩ := exists_advance_eq d
    rw [heq]
  | stall h => cases h
  | calm | write | patch | constant | intern | remember | scope => rfl

theorem Steps.stalled_eq (h : Steps false d d') : d'.stalled = d.stalled := by
  induction h with
  | refl => rfl
  | tail _ hstep ih => exact hstep.stalled_eq.trans ih

theorem Steps.running (h : Steps true d d') (hrunning : d'.stalled = false) : d.stalled = false :=
  Bool.eq_false_iff.mpr fun hstalled =>
    absurd (h.stalled hstalled) (Bool.eq_false_iff.mp hrunning)

/-! ### The code -/

/-- Code only grows. -/
theorem Step.size_le (h : Step true d d') : d.size ≤ d'.size := by
  cases h with
  | report t problem =>
    rw [Draft.report]
    split <;> exact Nat.le_refl _
  | advance =>
    obtain ⟨rest, panicking, diagnostics, heq, -⟩ := exists_advance_eq d
    rw [heq]
    exact Nat.le_refl _
  | write byte =>
    have hsize : (d.emitByte byte).size = d.size + 1 := by
      simp [size, emitByte, Chunk.size, Chunk.write]
    exact hsize ▸ Nat.le_succ d.size
  | patch offset distance => exact Nat.le_of_eq (by simp [size, Chunk.size, Chunk.patch])
  | calm | stall | constant | intern | remember | scope => exact Nat.le_refl _

theorem Steps.size_le (h : Steps true d d') : d.size ≤ d'.size := by
  induction h with
  | refl => exact Nat.le_refl _
  | tail _ hstep ih => exact Nat.le_trans ih hstep.size_le

/-- **Patching a jump cannot fail.** The two bytes that were written for its distance are still there
whatever has been compiled since. -/
theorem patch?_of_emitJump {d : Draft} {op : OpCode} (h : Steps true (d.emitJump op).2 d')
    (distance : Nat) : d'.chunk.patch? (d.emitJump op).1 distance =
      .ok (d'.chunk.patch (d.emitJump op).1 distance) := by
  have hsize : (d.emitJump op).1 + 2 = (d.emitJump op).2.size := by
    simp [emitJump, size, emitOp, emitByte, Chunk.size, Chunk.write]
  rw [Chunk.patch?, if_pos]
  exact hsize ▸ h.size_le

/-! ### Proper drafts -/

/-- Only proper tokens are ahead, and a panicking draft has reported something. -/
structure Proper (d : Draft) : Prop where
  last : d.last.kind = .endOfSource
  ahead : ∀ t ∈ d.ahead, t.IsProper
  honest : d.panicking = true → ¬d.Clean

/-- A proper draft reports nothing when it passes a token. -/
theorem Proper.advance_eq (h : d.Proper) :
    d.advance = { d with previous := d.current, ahead := d.ahead.tail } :=
  comeTo_eq_of_error? _ _ fun t ht => (h.ahead t (List.mem_of_mem_tail
    (List.mem_of_mem_head? ht))).error?

theorem Proper.report (h : d.Proper) (t : Token) (problem : Problem) :
    (d.report t problem).Proper ∧ ¬(d.report t problem).Clean := by
  have hclean : ¬(d.report t problem).Clean := fun hc =>
    h.honest (report_clean_iff.mp hc).2 (report_clean_iff.mp hc).1
  obtain ⟨hahead, hlast⟩ := (Step.report d t problem).tokens
  exact ⟨⟨hlast ▸ h.last, fun u hu => h.ahead u (hahead.subset hu), fun _ => hclean⟩, hclean⟩

theorem Proper.not_clean_report (h : d.Proper) (t : Token) (problem : Problem) :
    ¬(d.report t problem).Clean := (h.report t problem).2

/-- What is skipped is reported. -/
theorem Proper.not_clean_skip (h : d.Proper) {pass : Draft → Draft}
    (hpass : ∀ d, Steps true d (pass d)) : ¬(d.skip pass).Clean := fun hclean =>
  h.not_clean_report _ _ ((hpass (d.failAtPrevious .nestingTooDeep)).clean hclean)

theorem Step.proper (h : Step true d d') (hd : d.Proper) : d'.Proper := by
  cases h with
  | report t problem => exact (hd.report t problem).1
  | advance =>
    rw [hd.advance_eq]
    exact ⟨hd.last, fun u hu => hd.ahead u (List.mem_of_mem_tail hu), hd.honest⟩
  | calm => exact ⟨hd.last, hd.ahead, nofun⟩
  | stall | write | patch | constant | intern | remember | scope =>
    exact ⟨hd.last, hd.ahead, hd.honest⟩

theorem Steps.proper (h : Steps true d d') (hd : d.Proper) : d'.Proper := by
  induction h with
  | refl => exact hd
  | tail _ hstep ih => exact hstep.proper ih

/-- A clean proper draft is not panicking. -/
theorem Proper.panicking (h : d.Proper) (hclean : d.Clean) : d.panicking = false :=
  Bool.eq_false_iff.mpr fun hpanic => h.honest hpanic hclean

/-- In a proper draft the end of the source is current only when no token is ahead. -/
theorem Proper.current_kind_eq_end (h : d.Proper) :
    d.current.kind = .endOfSource ↔ d.ahead = [] := by
  rw [current]
  cases hahead : d.ahead with
  | nil => exact ⟨fun _ => rfl, fun _ => h.last⟩
  | cons t ts =>
    exact ⟨fun hk => absurd hk (h.ahead t (hahead ▸ List.mem_cons_self ..)).kind_ne, nofun⟩

end Draft

end Lox
