import Lox.Proofs.Bracing.Stretch
import Lox.Proofs.Lockstep.Expression

/-!
# Expressions inside a stretch

An expression does not leave its stretch, unless it comes to a brace where an operand should start.
Then the brace is reported, and that is exposed. While the draft is panicking this is not reported;
but an operand is then only looked for behind a token that is no semicolon, so that the stretch goes
on.

## Main definitions

* `Draft.Kept`: what writing code keeps.
* `Draft.Ready`: an expression may start.

## Main results

* `Draft.lockstep_alone`: the walk over expressions.
* `Draft.Unexcused.expression`: an expression is compiled inside its stretch.
-/

namespace Lox

namespace Draft

variable {source : String} {n : Nat} {worded live : Bool} {d : Draft} {P : Draft → Prop}

/-! ### Writing code -/

/-- What is kept by writing, and by reports about the token just passed that do not excuse it. -/
structure Kept (source : String) (P : Draft → Prop) : Prop where
  write {d : Draft} (chunk : Chunk) (scope : LocalScope) (strings : SymbolTable UInt8)
    (interner : Interner) : P d → P { d with chunk, scope, strings, interner }
  failAtPrevious {d : Draft} {problem : Problem} : P d → problem.isMissingBrace = false →
    ¬Excused source (d.failAtPrevious problem) → P (d.failAtPrevious problem)

namespace Kept

variable (h : Kept source P) (hd : Unexcused source P d)

include h hd

theorem fail (problem : Problem) (hproblem : problem.isMissingBrace = false) :
    Unexcused source P (d.failAtPrevious problem) :=
  hd.step (steps_failAtPrevious d _) fun hd => h.failAtPrevious hd hproblem

theorem setScope (scope : LocalScope) : Unexcused source P { d with scope } :=
  hd.step (Step.scope d scope).steps fun hd _ => h.write d.chunk scope d.strings d.interner hd

theorem patch (offset distance : Nat) :
    Unexcused source P { d with chunk := d.chunk.patch offset distance } :=
  hd.step (Step.patch d offset distance).steps fun hd _ =>
    h.write _ d.scope d.strings d.interner hd

theorem emitByte (byte : UInt8) : Unexcused source P (d.emitByte byte) :=
  hd.step (steps_emitByte d byte) fun hd _ => h.write _ d.scope d.strings d.interner hd

theorem emitOp (op : OpCode) : Unexcused source P (d.emitOp op) := h.emitByte hd _

theorem emitOpByte (op : OpCode) (operand : UInt8) : Unexcused source P (d.emitOpByte op operand) :=
  h.emitByte (h.emitOp hd op) operand

theorem emitJump (op : OpCode) : Unexcused source P (d.emitJump op).2 :=
  h.emitByte (h.emitByte (h.emitOp hd op) _) _

theorem patchJump (place : Nat) : Unexcused source P (d.patchJump place) := by
  rw [Draft.patchJump]
  split
  · exact h.patch hd _ _
  · exact h.fail hd _ rfl

theorem emitLoop (target : Nat) : Unexcused source P (d.emitLoop target) := by
  have hloop := h.emitOp hd .loop
  rw [Draft.emitLoop]
  split
  · exact h.emitByte (h.emitByte hloop _) _
  · exact h.emitByte (h.emitByte (h.fail hloop .loopTooLarge rfl) _) _

theorem addConstant (value : Value) : Unexcused source P (d.addConstant value).2 := by
  rw [Draft.addConstant]
  split
  · exact hd.step (Step.constant d value).steps fun hd _ =>
      h.write _ d.scope d.strings d.interner hd
  · exact h.fail hd _ rfl

theorem stringConstant (text : String) : Unexcused source P (d.stringConstant text).2 := by
  have hinterned : Unexcused source P { d with interner := (d.interner.intern text).2 } :=
    hd.step (Step.intern d text).steps fun hd _ => h.write d.chunk d.scope d.strings _ hd
  have hadded := h.addConstant hinterned (.string (d.interner.intern text).1)
  rw [Draft.stringConstant]
  simp only
  split
  · exact hinterned
  · split
    · next heq =>
      rw [heq] at hadded
      exact hadded.step (Step.remember _ _ _).steps fun hd _ => h.write _ _ _ _ hd
    · next heq =>
      rw [heq] at hadded
      exact hadded

theorem declareLocal (name : String) : Unexcused source P (d.declareLocal name) := by
  rw [Draft.declareLocal]
  split
  · exact h.setScope hd _
  · exact h.fail hd _ rfl

theorem endScope : Unexcused source P d.endScope := by
  have hrepeat : ∀ (count : Nat) (d : Draft), Unexcused source P d →
      Unexcused source P (Nat.repeat (Draft.emitOp · .pop) count d) := by
    intro count d hd
    induction count with
    | zero => exact hd
    | succ count ih => exact h.emitOp ih .pop
  exact hrepeat _ _ (h.setScope hd _)

end Kept

theorem Tracked.write (h : Tracked source n worded d) (chunk : Chunk) (scope : LocalScope)
    (strings : SymbolTable UInt8) (interner : Interner) :
    Tracked source n worded { d with chunk, scope, strings, interner } :=
  ⟨⟨h.proper.last, h.proper.ahead, h.proper.honest⟩, h.unalarmed, h.surplus, h.place,
    h.calm, h.confined⟩

theorem kept_within : Kept source (Within source n worded live) where
  write chunk scope strings interner h :=
    ⟨h.toTracked.write chunk scope strings interner, h.behind, h.live⟩
  failAtPrevious h hproblem hexcused := h.failAtPrevious hproblem hexcused

theorem kept_concluded : Kept source (Concluded source n) where
  write chunk scope strings interner h :=
    ⟨h.toTracked.write chunk scope strings interner, h.still, h.exposed⟩
  failAtPrevious h hproblem hexcused := absurd (h.excused_failAtPrevious hproblem) hexcused

/-! ### Passing and expecting tokens -/

theorem isInner_of_check {kind : TokenKind} (hcheck : d.check kind = true)
    (hkind : kind.isEdge = false) : d.current.isInner = true := by
  rw [Token.isInner, kind_of_check hcheck, hkind]
  rfl

/-- A token of the stretch is passed. -/
theorem Unexcused.pass (hd : Unexcused source (Tracked source n worded) d)
    (hinner : d.current.isInner = true) (hlive : live = true → d.current.kind ≠ .semicolon) :
    Unexcused source (Within source n worded live) d.advance :=
  hd.step (steps_advance d) fun hd _ => hd.advance hinner .inl hlive

/-- A token is passed that has been looked for. -/
theorem Unexcused.passChecked (hd : Unexcused source (Tracked source n worded) d) {kind : TokenKind}
    (hcheck : d.check kind = true) (hkind : kind.isEdge = false)
    (hlive : live = true → kind ≠ .semicolon) :
    Unexcused source (Within source n worded live) d.advance :=
  hd.pass (isInner_of_check hcheck hkind) (kind_of_check hcheck ▸ hlive)

theorem Unexcused.failAtCurrent (hd : Unexcused source (Within source n worded live) d)
    {problem : Problem} (hproblem : problem.isMissingBrace = false) :
    Unexcused source (Within source n worded live) (d.failAtCurrent problem) :=
  hd.step (steps_failAtCurrent d _) fun hd => hd.toTracked.failAtCurrent hproblem hd.live

theorem Unexcused.expect (hd : Unexcused source (Within source n worded live) d) (kind : TokenKind)
    (what : Expectation) (hkind : kind.isEdge = false)
    (hwhat : (Problem.expected what).isMissingBrace = false)
    (hlive : live = true → kind ≠ .semicolon) :
    Unexcused source (Within source n worded live) (d.expect kind what) := by
  rw [Draft.expect]
  split
  · next hcheck =>
    exact (hd.imp Within.toTracked).passChecked hcheck hkind hlive
  · exact hd.failAtCurrent hwhat

/-! ### Starting an expression -/

/-- An expression may start: if the draft is panicking, the stretch goes on. -/
structure Ready (source : String) (n : Nat) (worded : Bool) (d : Draft) : Prop extends
    Tracked source n worded d where
  onward : d.panicking = true → d.previous.kind ≠ .semicolon

theorem Within.ready (h : Within source n worded true d) : Ready source n worded d :=
  ⟨h.toTracked, fun _ => h.live rfl⟩

/-- One draft compared with itself. -/
abbrev Alone (source : String) (n : Nat) (worded live : Bool) (d d' : Draft) : Prop :=
  d = d' ∧ Unexcused source (Within source n worded live) d

/-- The first token of an expression is in the stretch, or nothing starts with it and that is
reported. If it is a brace, that excuses what comes. -/
theorem Unexcused.start (hd : Unexcused source (Ready source n worded) d) :
    if d.current.kind.opening?.isSome then Alone source n worded true d.advance d.advance
    else Alone source n worded false (d.advance.failAtPrevious (.expected .expression))
      (d.advance.failAtPrevious (.expected .expression)) := by
  split
  · next hopening =>
    have hinner : d.current.isInner = true := by
      unfold Token.isInner
      cases hkind : d.current.kind <;> simp_all [TokenKind.opening?, TokenKind.isEdge]
    have hlive : d.current.kind ≠ .semicolon := fun hkind => by
      simp [hkind, TokenKind.opening?] at hopening
    exact ⟨rfl, (hd.imp Ready.toTracked).pass hinner fun _ => hlive⟩
  · refine ⟨rfl, hd.step ((steps_advance d).trans (steps_failAtPrevious _ _))
      fun hd hexcused => ?_⟩
    by_cases hinner : d.current.isInner = true
    · have hpassed : Within source n worded false d.advance :=
        hd.toTracked.advance hinner .inl (absurd · Bool.false_ne_true)
      exact hpassed.failAtPrevious rfl hexcused
    · -- A panicking draft would have come to a token of its stretch, so that this is reported.
      have hcalm : d.panicking = false := by
        by_contra hpanic
        rw [Bool.not_eq_false] at hpanic
        exact hinner (isInner_of_stretchEnd (hd.confined hpanic) (hd.onward hpanic))
      obtain ⟨passed, htokens, -⟩ := hd.place
      obtain ⟨rest, hupcoming⟩ := d.upcoming_eq_cons
      rw [hupcoming] at htokens
      have hadvance := hd.proper.advance_eq
      refine absurd ?_ hexcused
      rw [Draft.failAtPrevious, previous_advance]
      exact Unalarmed.excused_report rfl (by rw [hadvance]; exact hd.unalarmed)
        (by rw [hadvance, hcalm]) htokens fun hsheltered => hinner hsheltered.inner

/-! ### Expressions -/

/-- **The walk over expressions.** The two drafts are one and the same. -/
theorem lockstep_alone : Lockstep (Alone source n worded) 0 Eq where
  weaken h := ⟨h.1, h.2.imp Within.weaken⟩
  operand _ := rfl
  last := by
    rintro live d _ ⟨rfl, hd⟩
    exact ⟨hd.last, hd.last⟩
  previous := by
    rintro live d _ ⟨rfl, -⟩
    exact ⟨rfl, rfl⟩
  connective h := by rw [h.1]
  check kind h _ := by rw [h.1]
  scope h := by rw [h.1]
  size h := by rw [h.1, Nat.add_zero]
  start := by
    rintro d _ ⟨rfl, hd⟩
    exact ⟨rfl, (hd.imp Within.ready).start⟩
  advance := by
    rintro live d _ ⟨rfl, hd⟩ hkind
    have hnone : ∀ kind : TokenKind, kind.isEdge = true ∨ kind = .semicolon →
        ¬(kind.connective?.isSome ∨ kind = .equal ∨ kind = .rightParen) := by
      intro kind hkind
      cases kind <;> simp_all [TokenKind.isEdge, TokenKind.connective?]
    have hkind : d.current.kind.connective?.isSome ∨ d.current.kind = .equal ∨
        d.current.kind = .rightParen := by simpa [Draft.check] using hkind
    have hinner : d.current.isInner = true := by
      rw [Token.isInner, Bool.not_eq_true']
      exact Bool.eq_false_iff.mpr fun hedge => hnone _ (.inl hedge) hkind
    exact ⟨rfl, (hd.imp Within.toTracked).pass hinner fun _ hsemicolon =>
      hnone _ (.inr hsemicolon) hkind⟩
  failAtPrevious := by
    rintro live d _ problem ⟨rfl, hd⟩ hproblem
    exact ⟨rfl, kept_within.fail hd _ hproblem⟩
  failAtCurrent := by
    rintro live d _ problem ⟨rfl, hd⟩ hproblem
    exact ⟨rfl, hd.failAtCurrent hproblem⟩
  emitByte := by
    rintro live d _ byte _ ⟨rfl, hd⟩ rfl
    exact ⟨rfl, kept_within.emitByte hd _⟩
  patch := by
    rintro live d _ offset distance ⟨rfl, hd⟩
    exact ⟨rfl, kept_within.patch hd _ _⟩
  stringConstant := by
    rintro live d _ text ⟨rfl, hd⟩
    exact ⟨rfl, rfl, kept_within.stringConstant hd text⟩
  number := by
    rintro live d _ value ⟨rfl, hd⟩
    exact ⟨rfl, rfl, kept_within.addConstant hd _⟩

/-- **An expression** is compiled inside its stretch. -/
theorem Unexcused.expression (hd : Unexcused source (Ready source n worded) d) (levels : Nat) :
    Unexcused source (Within source n worded false) (d.expression levels) := by
  cases levels with
  | zero =>
    exact hd.step (steps_failAtCurrent d _) fun hd =>
      hd.toTracked.failAtCurrent rfl (absurd · Bool.false_ne_true)
  | succ levels =>
    exact (lockstep_alone.expressionAt_succ .assignment (fun level d d' hd =>
      lockstep_alone.expressionAt levels level hd) rfl hd.start).2

end Draft

end Lox
