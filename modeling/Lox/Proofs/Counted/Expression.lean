import Lox.Compilation.Counted
import Lox.Proofs.Draft.Settled

/-!
# Counting the nesting of expressions

A piece of the compilation with a counter *follows* the same piece without one if it does the same to
the draft, leaves the counter at the number of active calls, and puts down nothing but what is in
order. Pieces that follow are put together in the ways in which functions are: one after the other,
with a choice, with a value that is read off the draft, or inside a call that is counted.

Calls get past their guards as long as the counter is below the limit. Since the counter is the
number of active calls, the levels that the compilation without a counter hands down are those that
the counter leaves up to the limit.

What becomes of the scope is said by a condition before and one after. An expression leaves the scope
as it is, so it keeps any condition.

## Main definitions

* `Event.InOrder`: what may be put down.
* `Counted.Stands`: the counter is at the number of active calls, and the log is in order.
* `Counted.Follows`, `Counted.Keeps`: what a piece does.

## Main results

* `Counted.History.eq_of_log_eq`, `Counted.History.returned_mem`: all that happens is in the log.
* `Counted.Follows.nested`: calls that are counted.
* `Counted.keeps_expressionAt`: expressions.
-/

namespace Lox

/-- The event is in order: the counter is the number of active calls and within the limit; a call
leaves the counter and the depth of the scope as it has found them, and a declaration leaves the
scope settled; and there is fuel for every call. -/
def Event.InOrder (limits : Limits) : Event → Prop
  | .moment active nesting => nesting = active ∧ nesting ≤ limits.nesting
  | .returned construct entry exit => exit.nesting = entry.nesting ∧
      exit.scope.depth = entry.scope.depth ∧
      (construct = .declaration → exit.scope.Settled limits.locals)
  | .exhausted => False

namespace Counted

/-- The counter is at the number of active calls, and the log is in order. -/
structure Stands (limits : Limits) (n : Nat) (s : Counted) : Prop where
  nesting : s.nesting = n
  bound : n ≤ limits.nesting
  log : ∀ event ∈ s.log, event.InOrder limits

/-- A declaration has been compiled with no level of nesting left. -/
def ReachesLimit (limits : Limits) (s : Counted) : Prop :=
  ∃ entry exit, .returned .declaration entry exit ∈ s.log ∧ limits.nesting ≤ entry.nesting

/-- Declarations that go on for ever are compiled with no level of nesting left only. -/
structure StallsAtLimit (limits : Limits) (s : Counted) : Prop where
  last : s.draft.last.kind = .endOfSource
  reaches : s.draft.stalled = true → s.ReachesLimit limits

/-- Where `n` calls are active and the scope meets a condition, the piece keeps the counter and the
order of the log, puts down all that happens, and makes the scope meet another condition. If
sequences of declarations are given up as soon as there is no hope for them, it does to the draft
what `f` does, and gives up at the limit only. -/
def Follows (limits : Limits) (patience n : Nat) (P Q : LocalScope → Prop)
    (piece : Counted → Counted) (f : Draft → Draft) : Prop :=
  ∀ s, s.Stands limits n → P s.draft.scope → (piece s).Stands limits n ∧ History n s (piece s) ∧
    Q (piece s).draft.scope ∧ (patience = 0 → (piece s).draft = f s.draft ∧
      (s.StallsAtLimit limits → (piece s).StallsAtLimit limits))

/-- The piece leaves the scope as it is. -/
def Keeps (limits : Limits) (patience n : Nat) (piece : Counted → Counted) (f : Draft → Draft) :
    Prop := ∀ P, Follows limits patience n P P piece f

variable {limits : Limits} {patience n : Nat} {P Q R : LocalScope → Prop}
  {piece piece' : Counted → Counted} {f f' : Draft → Draft} {α : Type}

/-! ### The log -/

namespace History

variable {active : Nat} {s s' s'' : Counted} {construct : Construct}

/-- What has been put down stays. -/
theorem log_suffix (h : History active s s') : s.log <:+ s'.log := by
  induction h with
  | nothing s => exact List.suffix_rfl
  | trans _ _ ih ih' => exact ih.trans ih'
  | change s draft => exact List.suffix_cons _ _
  | nested _ ih => exact ((List.suffix_cons _ _).trans ih).trans (List.suffix_cons _ _)
  | returned construct _ ih => exact ih.trans (List.suffix_cons _ _)

/-- **The log is complete**: where nothing has been put down, nothing has happened. -/
theorem eq_of_log_eq (h : History active s s') (hlog : s'.log = s.log) : s' = s := by
  have hgrown : ∀ {event : Event} {s s' : Counted}, s.log <:+ s'.log →
      event :: s'.log ≠ s.log := fun hsuffix heq => by
    have hle := hsuffix.length_le
    rw [← heq, List.length_cons] at hle
    omega
  induction h with
  | nothing s => rfl
  | trans h h' ih ih' =>
    -- The log in between is no shorter than the one before and no longer than the one after.
    have hbetween := h.log_suffix.eq_of_length_le (hlog ▸ h'.log_suffix.length_le)
    rw [ih' (hlog.trans hbetween), ih hbetween.symm]
  | change s draft => exact absurd hlog (hgrown List.suffix_rfl)
  | nested h _ => exact absurd hlog (hgrown ((List.suffix_cons _ _).trans h.log_suffix))
  | returned construct h _ => exact absurd hlog (hgrown h.log_suffix)

/-- **Every call is in the log**, from when it returns. -/
theorem returned_mem (h : History active (returning construct piece s) s') :
    .returned construct s.standing (piece s).standing ∈ s'.log :=
  h.log_suffix.subset List.mem_cons_self

end History

theorem ReachesLimit.mono {s s' : Counted} (h : s.ReachesLimit limits) (hlog : s.log <:+ s'.log) :
    s'.ReachesLimit limits := by
  obtain ⟨entry, exit, hmem, hlimit⟩ := h
  exact ⟨entry, exit, hlog.subset hmem, hlimit⟩

/-- What takes steps without stalling does not stall. -/
theorem StallsAtLimit.of_steps {s s' : Counted} (h : s.StallsAtLimit limits)
    (hsteps : Draft.Steps false s.draft s'.draft) (hlog : s.log <:+ s'.log) :
    s'.StallsAtLimit limits where
  last := hsteps.weaken.tokens.2 ▸ h.last
  reaches hstalled := (h.reaches (hsteps.stalled_eq ▸ hstalled)).mono hlog

/-! ### Putting pieces together -/

theorem Stands.note {s : Counted} (h : s.Stands limits n) (event : Event)
    (hevent : event.InOrder limits) : (s.note event).Stands limits n where
  nesting := h.nesting
  bound := h.bound
  log := List.forall_mem_cons.mpr ⟨hevent, h.log⟩

theorem Stands.moment {s : Counted} (h : s.Stands limits n) :
    (s.note (.moment n s.nesting)).Stands limits n :=
  h.note _ ⟨h.nesting, h.nesting ▸ h.bound⟩

namespace Follows

/-- One change of the draft. -/
theorem on (hsteps : ∀ d, Draft.Steps false d (f d)) (h : ∀ d, P d.scope → Q (f d).scope) :
    Follows limits patience n P Q (on n f) f :=
  fun s hs hP => ⟨Stands.moment ⟨hs.nesting, hs.bound, hs.log⟩, .change s (f s.draft),
    h s.draft hP, fun _ => ⟨rfl, fun hlimit =>
      hlimit.of_steps (hsteps s.draft) (List.suffix_cons _ _)⟩⟩

/-- One piece after the other. -/
theorem andThen (h : Follows limits patience n P Q piece f)
    (h' : Follows limits patience n Q R piece' f') :
    Follows limits patience n P R (fun s => piece' (piece s)) (fun d => f' (f d)) := by
  intro s hs hP
  obtain ⟨hfirst, hbefore, hQ, hdraft⟩ := h s hs hP
  obtain ⟨hsecond, hthen, hR, hdraft'⟩ := h' _ hfirst hQ
  refine ⟨hsecond, hbefore.trans hthen, hR, fun hexact => ?_⟩
  obtain ⟨heq, hlimit⟩ := hdraft hexact
  obtain ⟨heq', hlimit'⟩ := hdraft' hexact
  exact ⟨by rw [heq', heq], fun h => hlimit' (hlimit h)⟩

/-- A piece that does in each state what some piece does that follows. -/
theorem of_at (h : ∀ s : Counted, s.nesting = n → P s.draft.scope → ∃ piece' f',
      piece s = piece' s ∧ (patience = 0 → f s.draft = f' s.draft) ∧
        Follows limits patience n P Q piece' f') :
    Follows limits patience n P Q piece f := by
  intro s hs hP
  obtain ⟨piece', f', heq, hf, hfollows⟩ := h s hs.nesting hP
  obtain ⟨hafter, hhistory, hQ, hdraft⟩ := hfollows s hs hP
  rw [heq]
  exact ⟨hafter, hhistory, hQ, fun hexact =>
    ⟨(hdraft hexact).1.trans (hf hexact).symm, (hdraft hexact).2⟩⟩

/-- A piece that depends on something about the draft. -/
theorem read (r : Draft → α) {piece : α → Counted → Counted} {f : α → Draft → Draft}
    (h : ∀ x, Follows limits patience n P Q (piece x) (f x)) :
    Follows limits patience n P Q (fun s => piece (r s.draft) s) (fun d => f (r d) d) :=
  fun s => h (r s.draft) s

/-- A choice between two pieces. -/
theorem ite (b : Draft → Bool) (h : Follows limits patience n P Q piece f)
    (h' : Follows limits patience n P Q piece' f') :
    Follows limits patience n P Q (fun s => if b s.draft then piece s else piece' s)
      (fun d => if b d then f d else f' d) :=
  of_at fun s _ _ => by
    cases hb : b s.draft with
    | true => exact ⟨_, _, rfl, fun _ => rfl, h⟩
    | false => exact ⟨_, _, rfl, fun _ => rfl, h'⟩

/-- A change of the draft with an answer that the next piece needs. -/
theorem take {g : Draft → α × Draft} {piece : α → Counted → Counted} {f : α → Draft → Draft}
    (hsteps : ∀ d, Draft.Steps false d (g d).2) (hg : ∀ d, P d.scope → Q (g d).2.scope)
    (h : ∀ x, Follows limits patience n Q R (piece x) (f x)) :
    Follows limits patience n P R (fun s => piece (s.take n g).1 (s.take n g).2)
      (fun d => f (g d).1 (g d).2) :=
  fun s => ((on hsteps hg).andThen (h (g s.draft).1)) s

/-- A jump with a placeholder that the next piece needs. -/
theorem jump (op : OpCode) {piece : Nat → Counted → Counted} {f : Nat → Draft → Draft}
    (h : ∀ placeholder, Follows limits patience n P Q (piece placeholder) (f placeholder)) :
    Follows limits patience n P Q
      (fun s => piece (s.take n (·.emitJump op)).1 (s.take n (·.emitJump op)).2)
      (fun d => f (d.emitJump op).1 (d.emitJump op).2) :=
  take (Draft.steps_emitJump · op) (fun _ => id) h

/-- **A call that is counted** follows if the piece inside it does with one more call active. -/
theorem nested {piece : Nat → Counted → Counted}
    (h : Follows limits patience (n + 1) P Q (piece (n + 1)) f) (hroom : n + 1 ≤ limits.nesting) :
    Follows limits patience n P Q (nested n piece) f := by
  intro s hs hP
  have hbegun : Stands limits (n + 1) { s with nesting := s.nesting + 1 } :=
    ⟨congrArg (· + 1) hs.nesting, hroom, hs.log⟩
  obtain ⟨hinner, hhistory, hQ, hdraft⟩ := h _ hbegun.moment hP
  have hcall : History n s (Counted.nested n piece s) := History.nested (s := s) hhistory
  refine ⟨Stands.moment ⟨congrArg (· - 1) hinner.nesting, hs.bound, hinner.log⟩, hcall, hQ,
    fun hexact => ⟨(hdraft hexact).1, fun hlimit => ?_⟩⟩
  have hbefore := (hdraft hexact).2 (hlimit.of_steps .refl (List.suffix_cons _ _))
  exact hbefore.of_steps .refl (List.suffix_cons _ _)

/-- The return of a call is in order if the depth of the scope is known. -/
theorem returning (h : Follows limits patience n P Q piece f) (construct : Construct)
    (hdepth : ∀ scope scope', P scope → Q scope' → scope'.depth = scope.depth)
    (hsettled : ∀ scope, Q scope → construct = .declaration → scope.Settled limits.locals) :
    Follows limits patience n P Q (returning construct piece) f := by
  intro s hs hP
  obtain ⟨hafter, hhistory, hQ, hdraft⟩ := h s hs hP
  exact ⟨hafter.note _ ⟨hafter.nesting.trans hs.nesting.symm, hdepth _ _ hP hQ, hsettled _ hQ⟩,
    .returned construct hhistory, hQ, fun hexact => ⟨(hdraft hexact).1, fun hlimit =>
      ((hdraft hexact).2 hlimit).of_steps .refl (List.suffix_cons _ _)⟩⟩

end Follows

/-- Nothing at all. -/
theorem keeps_id : Keeps limits patience n id id :=
  fun _ s hs hP => ⟨hs, .nothing s, hP, fun _ => ⟨rfl, id⟩⟩

namespace Keeps

theorem on (h : ∀ d : Draft, d.Plain (f d)) : Keeps limits patience n (on n f) f :=
  fun _ => .on (fun d => (h d).steps) fun d hP => (h d).scope.symm ▸ hP

theorem andThen (h : Keeps limits patience n piece f) (h' : Keeps limits patience n piece' f') :
    Keeps limits patience n (fun s => piece' (piece s)) (fun d => f' (f d)) :=
  fun P => (h P).andThen (h' P)

theorem of_at (h : ∀ s : Counted, s.nesting = n → ∃ piece' f',
      piece s = piece' s ∧ f s.draft = f' s.draft ∧ Keeps limits patience n piece' f') :
    Keeps limits patience n piece f := fun P => .of_at fun s hs _ => by
  obtain ⟨piece', f', heq, hf, hkeeps⟩ := h s hs
  exact ⟨piece', f', heq, fun _ => hf, hkeeps P⟩

theorem ite (b : Draft → Bool) (h : Keeps limits patience n piece f)
    (h' : Keeps limits patience n piece' f') :
    Keeps limits patience n (fun s => if b s.draft then piece s else piece' s)
      (fun d => if b d then f d else f' d) := fun P => .ite b (h P) (h' P)

theorem take {g : Draft → α × Draft} {piece : α → Counted → Counted} {f : α → Draft → Draft}
    (hg : ∀ d : Draft, d.Plain (g d).2) (h : ∀ x, Keeps limits patience n (piece x) (f x)) :
    Keeps limits patience n (fun s => piece (s.take n g).1 (s.take n g).2)
      (fun d => f (g d).1 (g d).2) :=
  fun P => .take (fun d => (hg d).steps) (fun d hP => (hg d).scope.symm ▸ hP) fun x => h x P

theorem nested {piece : Nat → Counted → Counted}
    (h : Keeps limits patience (n + 1) (piece (n + 1)) f) (hroom : n + 1 ≤ limits.nesting) :
    Keeps limits patience n (nested n piece) f := fun P => (h P).nested hroom

theorem returning (h : Keeps limits patience n piece f) {construct : Construct}
    (hconstruct : construct ≠ .declaration) :
    Keeps limits patience n (returning construct piece) f := by
  intro P s hs hP
  have hsame := Follows.returning (h (· = s.draft.scope)) construct
    (fun scope scope' hscope hscope' => by rw [hscope, hscope'])
    fun _ _ heq => absurd heq hconstruct
  obtain ⟨hafter, hhistory, heq, hdraft⟩ := hsame s hs rfl
  exact ⟨hafter, hhistory, heq.symm ▸ hP, hdraft⟩

end Keeps

/-! ### Expressions -/

section Expressions

variable {expr : Precedence → Counted → Counted} {e : Precedence → Draft → Draft}
  (hexpr : ∀ level, Keeps limits patience n (expr level) (e level))

include hexpr

theorem keeps_access (assignable : Bool) (get set : OpCode) (operand : UInt8) :
    Keeps limits patience n (access n expr assignable get set operand)
      (Draft.access e assignable get set operand) :=
  .ite (fun d => assignable && d.check .equal)
    (((Keeps.on Draft.plain_advance).andThen (hexpr .assignment)).andThen
      (.on fun d => d.plain_emitOpByte set operand))
    (.on fun d => d.plain_emitOpByte get operand)

theorem keeps_nameUse (assignable : Bool) :
    Keeps limits patience n (nameUse n expr assignable) (Draft.nameUse e assignable) := by
  refine .of_at fun s _ => ?_
  rw [nameUse, Draft.nameUse]
  cases s.draft.scope.resolve s.draft.previous.lexeme with
  | error cause => exact ⟨_, _, rfl, rfl, .on fun d => d.plain_failAtPrevious (.scope cause)⟩
  | ok slot =>
    cases slot with
    | some slot => exact ⟨_, _, rfl, rfl, keeps_access hexpr _ _ _ _⟩
    | none => exact ⟨_, _, rfl, rfl, .take (fun d => d.plain_stringConstant _)
        fun index => keeps_access hexpr assignable .getGlobal .setGlobal index⟩

theorem keeps_operand (opening : Opening) (assignable : Bool) :
    Keeps limits patience n (operand n expr opening assignable)
      (Draft.operand e opening assignable) := by
  cases opening with
  | grouping => exact (hexpr .assignment).andThen (.on fun d => d.plain_expect _ _)
  | unary op => exact (hexpr .unary).andThen (.on fun d => d.plain_emitOp _)
  | number =>
    exact .on fun d => d.plain_emitConstant (.number (Number.parse d.previous.lexeme))
  | string =>
    exact .take (fun d => d.plain_stringConstant (Draft.unquote d.previous.lexeme))
      fun index => .on fun d => d.plain_emitOpByte .constant index
  | literal value => exact .on fun d => d.plain_emitOp _
  | «variable» => exact keeps_nameUse hexpr assignable

theorem keeps_conjunction :
    Keeps limits patience n (conjunction n expr) (Draft.conjunction e) :=
  .take (fun d => d.plain_emitJump .jumpIfFalse) fun done =>
    ((Keeps.on fun d => d.plain_emitOp .pop).andThen (hexpr .and)).andThen
      (.on fun d => d.plain_patchJump done)

theorem keeps_disjunction :
    Keeps limits patience n (disjunction n expr) (Draft.disjunction e) :=
  .take (fun d => d.plain_emitJump .jumpIfFalse) fun other =>
    .take (fun d => d.plain_emitJump .jump) fun done =>
      ((Keeps.on fun d => d.plain_land other).andThen
        (hexpr .or)).andThen (.on fun d => d.plain_patchJump done)

theorem keeps_connect (connective : Connective) :
    Keeps limits patience n (connect n expr connective) (Draft.connect e connective) := by
  cases connective with
  | binary op => exact (hexpr op.precedence.next).andThen (.on fun d => d.plain_emitOps _)
  | and => exact keeps_conjunction hexpr
  | or => exact keeps_disjunction hexpr

theorem keeps_connectives (level : Precedence) (bound : List Token) :
    Keeps limits patience n (connectives n expr level bound.length)
      (Draft.connectives e level bound) := by
  induction bound with
  | nil => exact keeps_id
  | cons t bound ih =>
    refine .of_at fun s _ => ?_
    rw [List.length_cons, connectives, Draft.connectives]
    cases s.draft.current.kind.connective? with
    | none => exact ⟨_, _, rfl, rfl, keeps_id⟩
    | some connective =>
      by_cases hlevel : level ≤ connective.precedence
      · simp only [if_pos hlevel]
        exact ⟨_, _, rfl, rfl, ((Keeps.on Draft.plain_advance).andThen
          (keeps_connect hexpr connective)).andThen ih⟩
      · simp only [if_neg hlevel]
        exact ⟨_, _, rfl, rfl, keeps_id⟩

theorem keeps_operandAndConnectives (level : Precedence) :
    Keeps limits patience n (operandAndConnectives n expr level)
      (Draft.operandAndConnectives e level) := by
  refine .of_at fun s _ => ?_
  rw [operandAndConnectives, Draft.operandAndConnectives]
  cases s.draft.previous.kind.opening? with
  | none => exact ⟨_, _, rfl, rfl, .on fun d => d.plain_failAtPrevious (.expected .expression)⟩
  | some opening =>
    have hconnectives : Keeps limits patience n
        (fun s => connectives n expr level s.draft.ahead.length s)
        (fun d => Draft.connectives e level d.ahead d) :=
      .of_at fun s _ => ⟨_, _, rfl, rfl, keeps_connectives hexpr level s.draft.ahead⟩
    exact ⟨_, _, rfl, rfl, ((keeps_operand hexpr opening (decide (level ≤ .assignment))).andThen
      hconnectives).andThen (.ite (fun d => decide (level ≤ .assignment) && d.check .equal)
        (.on fun d => d.plain_advance.trans (Draft.plain_failAtPrevious _ _)) keeps_id)⟩

end Expressions

/-- **Expressions.** As many levels are left to an expression as the counter leaves up to the limit,
and no more fuel is needed than one for each of them and one for the call that finds none left. -/
theorem keeps_expressionAt {fuel : Nat} (hbound : n ≤ limits.nesting)
    (hfuel : limits.nesting - n < fuel) (level : Precedence) :
    Keeps limits patience n (expressionAt limits.nesting fuel n level)
      (Draft.expressionAt (limits.nesting - n) level) := by
  induction fuel generalizing n level with
  | zero => exact absurd hfuel (Nat.not_lt_zero _)
  | succ fuel ih =>
    refine Keeps.returning (.of_at fun s hs => ?_) nofun
    rw [hs]
    by_cases hfull : limits.nesting ≤ n
    · rw [if_pos hfull, Nat.sub_eq_zero_of_le hfull]
      exact ⟨_, _, rfl, rfl, .on fun d => d.plain_failAtCurrent .nestingTooDeep⟩
    · rw [if_neg hfull]
      have hlevels : limits.nesting - n = limits.nesting - (n + 1) + 1 := by omega
      rw [hlevels]
      exact ⟨_, _, rfl, rfl, .nested ((Keeps.on Draft.plain_advance).andThen
        (keeps_operandAndConnectives (fun level => ih (by omega) (by omega) level) level))
        (by omega)⟩

end Counted

end Lox
