import Lox.Proofs.Draft.Maintenance
import Lox.Proofs.Lockstep.Expression

/-!
# Compiling expressions in a quiet place

What an expression compiles to does not depend on what has been reported before it, nor on errors
among the tokens. A draft is *quieted* by taking the errors ahead out of the source, forgetting all
reports and no longer panicking. Compiling an expression from there does the same as from the draft
itself, and tells what is wrong with the expression from what was wrong before it: if the quieted
draft reports nothing, then the draft reports lexical errors only, and if the draft reports nothing,
then neither does the quieted one.

## Main definitions

* `Draft.quiet`: the draft in a quiet place.
* `Draft.Quieted`: one draft is the other in a quiet place.

## Main results

* `Draft.lockstep_quieted`: compiling an expression keeps drafts so.
-/

namespace Lox

/-- Whether a token is not an error. -/
def Token.isSound (t : Token) : Bool := t.kind.error?.isNone

namespace Draft

/-- The first draft is the second in a quiet place. What the second has reported since `start` is
known from that. -/
structure Quieted (start d d' : Draft) : Prop where
  eq : ∃ ahead panicking diagnostics stalled,
    d' = { d with ahead, panicking, diagnostics, stalled }
  last : d.last.kind = .endOfSource
  ahead : d.ahead = d'.ahead.filter Token.isSound
  /-- The second draft has come to a token that is no error. -/
  reached : ∀ t ∈ d'.ahead.head?, t.isSound
  honest : d.panicking = true → ¬d.Clean
  /-- If nothing is wrong but for errors, only these are reported. -/
  lexical : d.Clean → ∃ new, d'.diagnostics.toList = start.diagnostics.toList ++ new ∧
    ∀ x ∈ new, x.problem.isLexical
  /-- Unless it was panicking at the start, the second draft reports what the first does. -/
  noticed : start.panicking = false →
    d.Clean ∧ d'.panicking = false ∧ d'.diagnostics = start.diagnostics ∨
      start.diagnostics.size < d'.diagnostics.size

namespace Quieted

variable {start d d' : Draft}

theorem previous (h : Quieted start d d') : d'.previous = d.previous := by
  obtain ⟨ahead, panicking, diagnostics, stalled, rfl⟩ := h.eq
  rfl

/-- Both drafts can be changed alike where they are alike. -/
theorem update (h : Quieted start d d') (f : Draft → Draft) (hlast : (f d).last = d.last)
    (hf : ∀ d ahead panicking diagnostics stalled,
      f { d with ahead, panicking, diagnostics, stalled } =
        { f d with ahead, panicking, diagnostics, stalled }) :
    Quieted start (f d) (f d') := by
  have hkept (d : Draft) : (f d).ahead = d.ahead ∧ (f d).panicking = d.panicking ∧
      (f d).diagnostics = d.diagnostics := by
    have hown : f d = { f d with
        ahead := d.ahead, panicking := d.panicking, diagnostics := d.diagnostics,
        stalled := d.stalled } := hf d ..
    rw [hown]
    exact ⟨rfl, rfl, rfl⟩
  obtain ⟨hahead, hpanicking, hdiagnostics⟩ := hkept d
  obtain ⟨hahead', hpanicking', hdiagnostics'⟩ := hkept d'
  refine ⟨?_, hlast ▸ h.last, ?_, ?_, ?_, ?_, ?_⟩
  · obtain ⟨ahead, panicking, diagnostics, stalled, rfl⟩ := h.eq
    exact ⟨_, _, _, _, hf d ..⟩
  · rw [hahead, hahead', h.ahead]
  · rw [hahead']
    exact h.reached
  · rw [Clean, hpanicking, hdiagnostics]
    exact h.honest
  · rw [Clean, hdiagnostics, hdiagnostics']
    exact h.lexical
  · rw [Clean, hdiagnostics, hpanicking', hdiagnostics']
    exact h.noticed

/-! ### Reports -/

theorem tokens_report (d : Draft) (t : Token) (problem : Problem) :
    (d.report t problem).ahead = d.ahead ∧ (d.report t problem).last = d.last := by
  obtain ⟨diagnostics, heq, -⟩ := exists_report_eq d t problem
  rw [heq]
  exact ⟨rfl, rfl⟩

/-- A report of the second draft is noticed. -/
theorem lt_size_report (h : Quieted start d d') (hcalm : start.panicking = false) (t : Token)
    (problem : Problem) : start.diagnostics.size < (d'.report t problem).diagnostics.size := by
  obtain ⟨diagnostics, heq, hsize⟩ := exists_report_eq d' t problem
  rw [heq]
  show _ < diagnostics.size
  rw [hsize]
  obtain ⟨-, hcalm', hsame⟩ | hlt := h.noticed hcalm
  · rw [hsame, hcalm']
    exact Nat.lt_succ_self _
  · exact Nat.lt_add_right _ hlt

/-- Both report a problem with the expression. -/
theorem report (h : Quieted start d d') (t : Token) (problem : Problem) :
    Quieted start (d.report t problem) (d'.report t problem) := by
  have hdirty : ¬(d.report t problem).Clean := fun hclean =>
    h.honest (report_clean_iff.mp hclean).2 (report_clean_iff.mp hclean).1
  refine ⟨?_, ?_, ?_, ?_, fun _ => hdirty, fun hclean => absurd hclean hdirty, fun hcalm =>
    .inr (h.lt_size_report hcalm t problem)⟩
  · obtain ⟨ahead, panicking, diagnostics, stalled, rfl⟩ := h.eq
    rw [Draft.report, Draft.report]
    split <;> split <;> exact ⟨_, _, _, _, rfl⟩
  · rw [(tokens_report d t problem).2, h.last]
  · rw [(tokens_report d t problem).1, (tokens_report d' t problem).1, h.ahead]
  · rw [(tokens_report d' t problem).1]
    exact h.reached

/-- The second draft reports an error, which the first does not have. -/
theorem report_lexical (h : Quieted start d d') (t : Token) (cause : LexicalError) :
    Quieted start d (d'.report t (.lexical cause)) := by
  refine ⟨?_, h.last, ?_, ?_, h.honest, fun hclean => ?_, fun hcalm =>
    .inr (h.lt_size_report hcalm t _)⟩
  · obtain ⟨ahead, panicking, diagnostics, stalled, rfl⟩ := h.eq
    rw [Draft.report]
    split <;> exact ⟨_, _, _, _, rfl⟩
  · rw [(tokens_report d' t _).1, h.ahead]
  · rw [(tokens_report d' t _).1]
    exact h.reached
  · obtain ⟨new, hnew, hlexical⟩ := h.lexical hclean
    rw [Draft.report]
    split
    · exact ⟨new, hnew, hlexical⟩
    · refine ⟨new ++ [.ofToken t (.lexical cause)], ?_, ?_⟩
      · rw [Array.toList_push, hnew, List.append_assoc]
      · intro x hx
        rcases List.mem_append.mp hx with hx | hx
        · exact hlexical x hx
        · rw [List.mem_singleton.mp hx]
          rfl

/-! ### Tokens -/

/-- Both come to the first token that is no error. -/
theorem comeTo (h : Quieted start d d') (tokens : List Token) :
    Quieted start (d.comeTo (tokens.filter Token.isSound)) (d'.comeTo tokens) := by
  have hmoved : ∀ {d' : Draft} (tokens : List Token), Quieted start d d' →
      (∀ t ∈ tokens.head?, t.isSound) →
      Quieted start { d with ahead := tokens.filter Token.isSound } { d' with ahead := tokens } := by
    intro d' tokens h hreached
    obtain ⟨ahead, panicking, diagnostics, stalled, rfl⟩ := h.eq
    exact ⟨⟨_, _, _, _, rfl⟩, h.last, rfl, hreached, h.honest, h.lexical, h.noticed⟩
  induction tokens generalizing d' with
  | nil => exact hmoved [] h nofun
  | cons t tokens ih =>
    rw [Draft.comeTo.eq_def d']
    simp only
    split
    · next cause hkind =>
      have hdrop : (t :: tokens).filter Token.isSound = tokens.filter Token.isSound :=
        List.filter_cons_of_neg (by simp [Token.isSound, hkind, TokenKind.error?])
      rw [hdrop]
      exact ih (h.report_lexical t cause)
    · next hkind =>
      have herror : t.kind.error? = none := by
        cases hsome : t.kind with
        | invalid cause => exact absurd hsome (hkind cause)
        | _ => rfl
      have hsound : t.isSound = true := by simp [Token.isSound, herror]
      have hhead : ∀ u ∈ (t :: tokens).head?, u.isSound := by
        rintro u ⟨⟩
        exact hsound
      have hstops : d.comeTo ((t :: tokens).filter Token.isSound) =
          { d with ahead := (t :: tokens).filter Token.isSound } := by
        refine comeTo_eq_of_error? d _ ?_
        rw [List.filter_cons_of_pos hsound]
        rintro u ⟨⟩
        exact herror
      rw [hstops]
      exact hmoved (t :: tokens) h hhead

theorem current (h : Quieted start d d') : d'.current = d.current := by
  have hlast : d'.last = d.last := by
    obtain ⟨ahead, panicking, diagnostics, stalled, rfl⟩ := h.eq
    rfl
  have hreached := h.reached
  rw [Draft.current, Draft.current, h.ahead, hlast]
  cases hahead : d'.ahead with
  | nil => rfl
  | cons t rest =>
    rw [List.filter_cons_of_pos (hreached t (by rw [hahead]; rfl))]
    rfl

theorem advance (h : Quieted start d d') : Quieted start d.advance d'.advance := by
  have htail : d.ahead.tail = d'.ahead.tail.filter Token.isSound := by
    have hreached := h.reached
    rw [h.ahead]
    cases hahead : d'.ahead with
    | nil => rfl
    | cons t rest =>
      rw [List.filter_cons_of_pos (hreached t (by rw [hahead]; rfl))]
      rfl
  have hpassed : Quieted start { d with previous := d.current }
      { d' with previous := d'.current } := by
    rw [h.current]
    exact h.update ({ · with previous := d.current }) rfl fun _ _ _ _ _ => rfl
  rw [Draft.advance, Draft.advance, htail]
  exact hpassed.comeTo _

/-! ### Constants -/

theorem addConstant (h : Quieted start d d') (value : Value) :
    (d.addConstant value).1 = (d'.addConstant value).1 ∧
      Quieted start (d.addConstant value).2 (d'.addConstant value).2 := by
  have hchunk : d'.chunk = d.chunk := by
    obtain ⟨ahead, panicking, diagnostics, stalled, rfl⟩ := h.eq
    rfl
  rw [Draft.addConstant, Draft.addConstant, hchunk]
  split
  · exact ⟨rfl, h.update ({ · with chunk := d.chunk.addConstant value }) rfl fun _ _ _ _ _ => rfl⟩
  · rw [failAtPrevious, failAtPrevious, h.previous]
    exact ⟨rfl, h.report _ _⟩

theorem stringConstant (h : Quieted start d d') (text : String) :
    (d.stringConstant text).1 = (d'.stringConstant text).1 ∧
      Quieted start (d.stringConstant text).2 (d'.stringConstant text).2 := by
  have hinterned :=
    h.update ({ · with interner := (d.interner.intern text).2 }) rfl fun _ _ _ _ _ => rfl
  obtain ⟨ahead, panicking, diagnostics, stalled, rfl⟩ := h.eq
  rw [Draft.stringConstant, Draft.stringConstant]
  simp only
  cases d.strings.find? (d.interner.intern text).1 with
  | some index => exact ⟨rfl, hinterned⟩
  | none =>
    obtain ⟨hindex, hadded⟩ := hinterned.addConstant (.string (d.interner.intern text).1)
    simp only
    generalize Draft.addConstant _ _ = added at hindex hadded ⊢
    generalize Draft.addConstant _ _ = added' at hindex hadded ⊢
    obtain ⟨index, e⟩ := added
    obtain ⟨index', e'⟩ := added'
    obtain rfl : index = index' := hindex
    cases index with
    | none => exact ⟨rfl, hadded⟩
    | some index =>
      let enlist (symbol : Symbol) (e : Draft) : Draft :=
        { e with strings := (e.strings.insert symbol index).2 }
      exact ⟨rfl, hadded.update (enlist (d.interner.intern text).1) rfl fun _ _ _ _ _ => rfl⟩

end Quieted

/-- The draft in a quiet place. -/
def quiet (d : Draft) : Draft :=
  { d with
    ahead := d.ahead.filter Token.isSound, panicking := false, diagnostics := #[], stalled := false }

/-- A draft that has come to a token that is no error can be quieted. -/
theorem quieted_quiet {d : Draft} (hlast : d.last.kind = .endOfSource)
    (hreached : ∀ t ∈ d.ahead.head?, t.isSound) : Quieted d d.quiet d where
  eq := ⟨_, _, _, _, rfl⟩
  last := hlast
  ahead := rfl
  reached := hreached
  honest := nofun
  lexical _ := ⟨[], (List.append_nil _).symm, nofun⟩
  noticed hcalm := .inl ⟨rfl, hcalm, rfl⟩

variable {start : Draft}

/-- **Compiling an expression in a quiet place** does the same. -/
theorem lockstep_quieted : Lockstep (fun _ => Quieted start) 0 Eq where
  weaken h := h
  operand _ := rfl
  last {_ d d'} h := ⟨h.last, by
    obtain ⟨ahead, panicking, diagnostics, stalled, rfl⟩ := h.eq
    exact h.last⟩
  previous h := by
    rw [h.previous]
    exact ⟨rfl, rfl⟩
  connective h := by rw [h.current]
  check kind h _ := by rw [check, check, h.current]
  scope h := by
    obtain ⟨ahead, panicking, diagnostics, stalled, rfl⟩ := h.eq
    rfl
  size h := by
    obtain ⟨ahead, panicking, diagnostics, stalled, rfl⟩ := h.eq
    rfl
  start h := by
    refine ⟨by rw [h.current], ?_⟩
    split
    · exact h.advance
    · rw [failAtPrevious, failAtPrevious, h.advance.previous]
      exact h.advance.report _ _
  advance h _ := h.advance
  failAtPrevious problem h _ := by
    rw [failAtPrevious, failAtPrevious, h.previous]
    exact h.report _ _
  failAtCurrent problem h _ := by
    rw [failAtCurrent, failAtCurrent, h.current]
    exact h.report _ _
  emitByte h hbyte := by
    subst hbyte
    exact h.update (·.emitByte _) rfl fun _ _ _ _ _ => rfl
  patch offset distance h :=
    h.update (fun d => { d with chunk := d.chunk.patch offset distance }) rfl fun _ _ _ _ _ => rfl
  stringConstant text h := h.stringConstant text
  number value h := by
    obtain ⟨hindex, hadded⟩ := h.addConstant (.number value)
    exact ⟨congrArg (·.getD 0) hindex, hadded⟩

end Draft

end Lox
