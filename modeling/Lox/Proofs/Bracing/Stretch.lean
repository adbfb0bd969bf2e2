import Lox.Proofs.Draft.Position
import Lox.Proofs.Lockstep.Expression
import Lox.Proofs.Parsing.Expression
import Lox.Proofs.Skipping
import Mathlib.Data.List.DropRight

/-!
# Stretches of a source without braces

The braces of a source divide its tokens into stretches. Recovery does not look for braces, so that
it may leave the stretch where a problem was found, and then pass a brace that it should not. It
stays inside if the stretch ends in a semicolon, since it stops behind a semicolon at the latest. And
so does what is compiled between the report and recovery, unless that is a statement with a body,
which goes on behind any problem with its parts.

The closing braces ahead in excess of the opening ones are the blocks that are open. At the end of the
source there is none ahead, so that there no block is open.

## Main definitions

* `Sheltered`: a place in a source where a problem does no harm to braces.
* `Diagnostic.IsExposed`: a problem at any other place.
* `surplus`: the closing braces in excess.
* `Draft.Excused`: an exposed problem comes before every missing brace.
* `Draft.Tracked`, `Draft.Within`, `Draft.Concluded`: where a draft is that nothing excuses.

## Main results

* `Braced.surplus_eq_zero`: balanced braces have no surplus.
* `Draft.Tracked.advance`, `Draft.Tracked.advance_edge`: passing a token of a stretch, and a brace.
* `Draft.Tracked.failAtCurrent`, `Draft.Within.failAtPrevious`: reports.
-/

namespace Lox

/-! ### Places in a source -/

/-- Whether a token stands between stretches: the braces and the end of the source do. -/
def TokenKind.isEdge : TokenKind → Bool
  | .leftBrace | .rightBrace | .endOfSource => true
  | _ => false

/-- Whether a word belongs to a statement with a body. -/
def TokenKind.isControl : TokenKind → Bool
  | .kwIf | .kwElse | .kwWhile | .kwFor => true
  | _ => false

/-- Whether a token is inside a stretch. -/
def Token.isInner (t : Token) : Bool := !t.kind.isEdge

/-- The last token of the stretch of a token that `after` follows. -/
def stretchEnd (t : Token) (after : List Token) : Token := (after.takeWhile Token.isInner).getLastD t

/-- The stretch that has been passed last has a word of a statement with a body. -/
def HasControl (passed : List Token) : Prop :=
  ∃ t ∈ passed.rtakeWhile Token.isInner, t.kind.isControl = true

instance (passed : List Token) : Decidable (HasControl passed) := List.decidableBEx ..

/-- A token in a stretch that ends in a semicolon and has no word of a statement with a body up to
there. -/
structure Sheltered (before : List Token) (t : Token) (after : List Token) : Prop where
  inner : t.isInner = true
  plain : ¬HasControl (before ++ [t])
  semicolon : (stretchEnd t after).kind = .semicolon

instance (before : List Token) (t : Token) (after : List Token) :
    Decidable (Sheltered before t after) :=
  decidable_of_iff
    (t.isInner = true ∧ ¬HasControl (before ++ [t]) ∧ (stretchEnd t after).kind = .semicolon)
    ⟨fun h => ⟨h.1, h.2.1, h.2.2⟩, fun h => ⟨h.inner, h.plain, h.semicolon⟩⟩

/-- An operand is missing in `{;}`, and a semicolon in `{print 1}`. -/
example :
    let token (kind : TokenKind) : Token := ⟨kind, "", ⟨0, 0⟩, 1⟩
    Sheltered [token .leftBrace] (token .semicolon) [token .rightBrace] ∧
      ¬Sheltered [token .leftBrace, token .kwPrint, token .number] (token .rightBrace) [] := by
  decide

/-- The diagnostic is about a token of the source that is not sheltered. -/
def Diagnostic.IsExposed (source : String) (x : Diagnostic) : Prop :=
  ∃ before t after problem, sourceTokens source = before ++ t :: after ∧ x = .ofToken t problem ∧
    ¬Sheltered before t after

section Stretch

variable {t u : Token} {passed ts : List Token}

theorem stretchEnd_cons (h : u.isInner = true) : stretchEnd t (u :: ts) = stretchEnd u ts := by
  rw [stretchEnd, List.takeWhile_cons_of_pos h, List.getLastD_cons, stretchEnd]

theorem stretchEnd_cons_of_edge (h : u.isInner = false) : stretchEnd t (u :: ts) = t := by
  rw [stretchEnd, List.takeWhile_cons_of_neg (by simp [h]), List.getLastD_nil]

theorem HasControl.concat (h : HasControl passed) (ht : t.isInner = true) :
    HasControl (passed ++ [t]) := by
  obtain ⟨u, hu, hcontrol⟩ := h
  refine ⟨u, ?_, hcontrol⟩
  rw [List.rtakeWhile_concat_pos _ _ _ ht]
  exact List.mem_append_left _ hu

theorem Token.isInner_of_isControl (h : t.kind.isControl = true) : t.isInner = true := by
  unfold Token.isInner
  cases hkind : t.kind <;> simp_all [TokenKind.isControl, TokenKind.isEdge]

theorem hasControl_concat (h : t.kind.isControl = true) : HasControl (passed ++ [t]) := by
  refine ⟨t, ?_, h⟩
  rw [List.rtakeWhile_concat_pos _ _ _ (Token.isInner_of_isControl h)]
  exact List.mem_append_right _ (List.mem_singleton_self t)

end Stretch

/-! ### The balance of braces -/

/-- What a token counts for: a closing brace for one, and an opening brace against it. -/
def TokenKind.weight : TokenKind → Int
  | .rightBrace => 1
  | .leftBrace => -1
  | _ => 0

/-- The number of closing braces in excess of the opening ones. -/
def surplus : List Token → Int
  | [] => 0
  | t :: ts => t.kind.weight + surplus ts

@[simp] theorem surplus_nil : surplus [] = 0 := rfl

@[simp] theorem surplus_cons (t : Token) (ts : List Token) :
    surplus (t :: ts) = t.kind.weight + surplus ts := rfl

@[simp] theorem surplus_append (ts us : List Token) :
    surplus (ts ++ us) = surplus ts + surplus us := by
  induction ts with
  | nil => exact (Int.zero_add _).symm
  | cons t ts ih => rw [List.cons_append, surplus_cons, ih, surplus_cons, Int.add_assoc]

theorem TokenKind.weight_eq_zero {kind : TokenKind} (hleft : kind ≠ .leftBrace)
    (hright : kind ≠ .rightBrace) : kind.weight = 0 := by
  cases kind <;> first
    | rfl
    | contradiction

theorem Token.weight_of_isInner {t : Token} (h : t.isInner = true) : t.kind.weight = 0 :=
  TokenKind.weight_eq_zero (fun hkind => by simp [isInner, hkind, TokenKind.isEdge] at h)
    fun hkind => by simp [isInner, hkind, TokenKind.isEdge] at h

/-- Balanced braces have no surplus. -/
theorem Braced.surplus_eq_zero {ts : List Token} (h : Braced ts) : surplus ts = 0 := by
  induction h with
  | nil => rfl
  | token kind _ ih =>
    simp only [List.mem_cons, List.not_mem_nil, or_false, not_or] at kind
    rw [surplus_cons, TokenKind.weight_eq_zero kind.1 kind.2.1, ih]
    rfl
  | nested opening _ closing _ ihInside ihRest =>
    rw [surplus_cons, surplus_append, surplus_cons, opening, closing, ihInside, ihRest]
    rfl

namespace Draft

variable {source : String} {n : Nat} {worded live : Bool} {d e : Draft} {P Q : Draft → Prop}

/-! ### Excuses -/

/-- Every report of a missing brace comes behind an exposed one, or compiling never ends. -/
def Excused (source : String) (d : Draft) : Prop :=
  d.stalled = true ∨ ∃ found, found <+: d.diagnostics.toList ∧
    (∀ x ∈ found, x.problem.isMissingBrace = false) ∧ ∃ x ∈ found, x.IsExposed source

/-- An excuse is never taken back. -/
theorem Excused.of_steps (h : Excused source d) (hsteps : Steps true d e) : Excused source e := by
  obtain hstalled | ⟨found, hfound, hrest⟩ := h
  · exact .inl (hsteps.stalled hstalled)
  · exact .inr ⟨found, hfound.trans hsteps.reported, hrest⟩

/-- Something holds of the draft unless that is excused. -/
structure Unexcused (source : String) (P : Draft → Prop) (d : Draft) : Prop where
  last : d.last.kind = .endOfSource
  holds : ¬Excused source d → P d

/-- What is excused before some steps is so afterwards, and needs not be looked at. -/
theorem Unexcused.step (h : Unexcused source P d) (hsteps : Steps true d e)
    (hstep : P d → ¬Excused source e → Q e) : Unexcused source Q e :=
  ⟨hsteps.tokens.2 ▸ h.last, fun hexcused =>
    hstep (h.holds fun hbefore => hexcused (hbefore.of_steps hsteps)) hexcused⟩

theorem Unexcused.imp (h : Unexcused source P d) (himp : P d → Q d) : Unexcused source Q d :=
  ⟨h.last, fun hexcused => himp (h.holds hexcused)⟩

/-! ### Where a draft is -/

/-- No missing brace has been reported. -/
def Unalarmed (d : Draft) : Prop := ∀ x ∈ d.diagnostics.toList, x.problem.isMissingBrace = false

/-- A draft that nothing excuses has reported no missing brace, and knows how many blocks it is in.
If a problem has been reported since the last recovery, that was in a stretch with a semicolon at its
end, which has not been left since. With the mark, a word of a statement with a body has been passed
in this stretch. -/
structure Tracked (source : String) (n : Nat) (worded : Bool) (d : Draft) : Prop where
  proper : d.Proper
  unalarmed : d.Unalarmed
  surplus : surplus d.ahead = n
  place : ∃ passed, sourceTokens source = passed ++ d.upcoming ∧
    (worded = true → HasControl passed)
  calm : worded = true → d.panicking = false
  confined : d.panicking = true → (stretchEnd d.previous d.upcoming).kind = .semicolon

/-- Inside a statement the token just passed may be reported. With the second mark, an expression
may start. -/
structure Within (source : String) (n : Nat) (worded live : Bool) (d : Draft) : Prop extends
    Tracked source n worded d where
  behind : d.panicking = false → ∃ before, sourceTokens source = before ++ d.previous :: d.upcoming
  live : live = true → d.previous.kind ≠ .semicolon

/-- Behind a block, or a statement with a body, a problem with what has been passed is exposed. -/
structure Concluded (source : String) (n : Nat) (d : Draft) : Prop extends
    Tracked source n false d where
  still : d.panicking = false
  exposed : ∃ before, sourceTokens source = before ++ d.previous :: d.upcoming ∧
    ¬Sheltered before d.previous d.upcoming

theorem Within.weaken (h : Within source n worded live d) : Within source n worded false d :=
  ⟨h.toTracked, h.behind, (absurd · Bool.false_ne_true)⟩

theorem Concluded.within (h : Concluded source n d) : Within source n false false d :=
  ⟨h.toTracked, fun _ => h.exposed.imp fun _ => And.left, (absurd · Bool.false_ne_true)⟩

/-- The tokens passed up to the current one, if the draft has passed any. -/
theorem Within.exists_before (h : Within source n worded live d) (hcalm : d.panicking = false) :
    ∃ before, sourceTokens source = before ++ d.previous :: d.upcoming ∧
      (worded = true → HasControl (before ++ [d.previous])) := by
  obtain ⟨before, htokens⟩ := h.behind hcalm
  obtain ⟨passed, htokens', hcontrol⟩ := h.place
  refine ⟨before, htokens, ?_⟩
  have hsame : passed ++ d.upcoming = (before ++ [d.previous]) ++ d.upcoming := by
    rw [← htokens', htokens, List.append_assoc, List.singleton_append]
  exact List.append_cancel_right hsame ▸ hcontrol

/-- Behind a word of a statement with a body everything is exposed. -/
theorem Within.concluded (h : Within source n true live d) : Concluded source n d := by
  have hcalm := h.calm rfl
  obtain ⟨before, htokens, hcontrol⟩ := h.exists_before hcalm
  obtain ⟨passed, hplace, -⟩ := h.place
  exact ⟨⟨h.proper, h.unalarmed, h.surplus, ⟨passed, hplace, nofun⟩, nofun, h.confined⟩, hcalm,
    before, htokens, fun hsheltered => hsheltered.plain (hcontrol rfl)⟩

/-! ### Passing a token -/

theorem Proper.upcoming_eq (h : d.Proper) (hkind : d.current.kind ≠ .endOfSource) :
    d.upcoming = d.current :: d.advance.upcoming := by
  rw [upcoming, (h.exists_cons hkind).1, upcoming, ((Step.advance d : Step true d _).tokens).2]
  rfl

theorem kind_ne_end_of_isInner {t : Token} (h : t.isInner = true) : t.kind ≠ .endOfSource :=
  fun hkind => by simp [Token.isInner, hkind, TokenKind.isEdge] at h

/-- Inside a stretch, passing a token does not change where it ends. -/
theorem Proper.stretchEnd_advance (h : d.Proper) (hinner : d.current.isInner = true) :
    stretchEnd d.advance.previous d.advance.upcoming = stretchEnd d.previous d.upcoming := by
  rw [h.upcoming_eq (kind_ne_end_of_isInner hinner), stretchEnd_cons hinner, previous_advance]

/-- Before the semicolon at its end has been passed, a stretch goes on. -/
theorem isInner_of_stretchEnd (h : (stretchEnd d.previous d.upcoming).kind = .semicolon)
    (hprevious : d.previous.kind ≠ .semicolon) : d.current.isInner = true := by
  by_contra hedge
  obtain ⟨rest, hupcoming⟩ := d.upcoming_eq_cons
  rw [hupcoming, stretchEnd_cons_of_edge (Bool.eq_false_iff.mpr hedge)] at h
  exact hprevious h

section Advance

variable (h : Tracked source n worded d)

include h

/-- The tokens that have been passed, with the current one. -/
theorem Tracked.place_advance (hend : d.current.kind ≠ .endOfSource) : ∃ passed,
    sourceTokens source = passed ++ d.current :: d.advance.upcoming ∧
      (worded = true → HasControl passed) := by
  obtain ⟨passed, htokens, hcontrol⟩ := h.place
  rw [h.proper.upcoming_eq hend] at htokens
  exact ⟨passed, htokens, hcontrol⟩

/-- **Passing a token of the stretch.** It may be a word of a statement with a body. -/
theorem Tracked.advance {worded' : Bool} (hinner : d.current.isInner = true)
    (hworded : worded' = true →
      worded = true ∨ d.current.kind.isControl = true ∧ d.panicking = false)
    (hlive : live = true → d.current.kind ≠ .semicolon) :
    Within source n worded' live d.advance := by
  have hend := kind_ne_end_of_isInner hinner
  have hpanicking : d.advance.panicking = d.panicking := by rw [h.proper.advance_eq]
  obtain ⟨passed, htokens, hcontrol⟩ := h.place_advance hend
  exact {
    proper := (steps_advance d).proper h.proper
    unalarmed := by
      rw [h.proper.advance_eq]
      exact h.unalarmed
    surplus := by
      rw [← h.surplus, (h.proper.exists_cons hend).1, surplus_cons, Token.weight_of_isInner hinner,
        Int.zero_add]
    place := by
      refine ⟨passed ++ [d.current], ?_, fun hmark => ?_⟩
      · rw [htokens, List.append_assoc, List.singleton_append]
      · obtain hmark | ⟨hcurrent, -⟩ := hworded hmark
        · exact (hcontrol hmark).concat hinner
        · exact hasControl_concat hcurrent
    calm := fun hmark => by
      rw [hpanicking]
      exact (hworded hmark).elim h.calm And.right
    confined := fun hpanic => by
      rw [h.proper.stretchEnd_advance hinner]
      exact h.confined (hpanicking ▸ hpanic)
    behind := fun _ => ⟨passed, by rw [previous_advance, htokens]⟩
    live := by rwa [previous_advance] }

/-- **Passing a brace.** The next stretch begins. -/
theorem Tracked.advance_edge {m : Nat} (hcalm : d.panicking = false)
    (hedge : d.current.isInner = false) (hend : d.current.kind ≠ .endOfSource)
    (hsurplus : d.current.kind.weight + m = n) : Concluded source m d.advance := by
  have hpanicking : d.advance.panicking = false := by rw [h.proper.advance_eq, hcalm]
  obtain ⟨passed, htokens, -⟩ := h.place_advance hend
  have hahead := h.surplus
  rw [(h.proper.exists_cons hend).1, surplus_cons] at hahead
  exact {
    proper := (steps_advance d).proper h.proper
    unalarmed := by
      rw [h.proper.advance_eq]
      exact h.unalarmed
    surplus := by omega
    place := by
      refine ⟨passed ++ [d.current], ?_, nofun⟩
      rw [htokens, List.append_assoc, List.singleton_append]
    calm := nofun
    confined := fun hpanic => absurd hpanic (Bool.eq_false_iff.mp hpanicking)
    still := hpanicking
    exposed := by
      refine ⟨passed, by rw [previous_advance, htokens], fun hsheltered => ?_⟩
      rw [previous_advance] at hsheltered
      exact absurd hsheltered.inner (Bool.eq_false_iff.mp hedge) }

end Advance

/-! ### Reports -/

section Reports

variable {t : Token} {before after : List Token} {problem : Problem}
  (hproblem : problem.isMissingBrace = false)

include hproblem

theorem Unalarmed.report (h : d.Unalarmed) (t : Token) : (d.report t problem).Unalarmed := by
  cases hpanic : d.panicking with
  | true =>
    rw [report_of_panicking hpanic]
    exact h
  | false =>
    rw [report_of_calm hpanic, Unalarmed, Array.toList_push]
    exact List.forall_mem_append.mpr ⟨h, List.forall_mem_singleton.mpr hproblem⟩

/-- A report at an exposed place excuses what comes. -/
theorem Unalarmed.excused_report (h : d.Unalarmed) (hcalm : d.panicking = false)
    (htokens : sourceTokens source = before ++ t :: after) (hexposed : ¬Sheltered before t after) :
    Excused source (d.report t problem) := by
  refine .inr ⟨_, List.prefix_refl _, h.report hproblem t, .ofToken t problem, ?_, before, t,
    after, problem, htokens, rfl, hexposed⟩
  rw [report_of_calm hcalm, Array.toList_push]
  exact List.mem_append_right _ (List.mem_singleton_self _)

/-- A report that does not excuse is at a sheltered place, and confines the draft. -/
theorem Tracked.report (h : Tracked source n worded d) (hcalm : d.panicking = false)
    (htokens : sourceTokens source = before ++ t :: after)
    (hconfined : Sheltered before t after →
      worded = false ∧ (stretchEnd d.previous d.upcoming).kind = .semicolon)
    (hlive : live = true → d.previous.kind ≠ .semicolon)
    (hexcused : ¬Excused source (d.report t problem)) :
    Within source n worded live (d.report t problem) := by
  have hsheltered : Sheltered before t after := by
    by_contra hexposed
    exact hexcused (h.unalarmed.excused_report hproblem hcalm htokens hexposed)
  obtain ⟨rfl, hend⟩ := hconfined hsheltered
  have hproper := (h.proper.report t problem).1
  have hunalarmed := h.unalarmed.report hproblem t
  rw [report_of_calm hcalm] at hproper hunalarmed ⊢
  exact ⟨⟨hproper, hunalarmed, h.surplus, h.place, nofun, fun _ => hend⟩, nofun, hlive⟩

/-- **A report at the current token.** -/
theorem Tracked.failAtCurrent (h : Tracked source n worded d)
    (hlive : live = true → d.previous.kind ≠ .semicolon)
    (hexcused : ¬Excused source (d.failAtCurrent problem)) :
    Within source n worded live (d.failAtCurrent problem) := by
  cases hpanic : d.panicking with
  | true =>
    rw [Draft.failAtCurrent, report_of_panicking hpanic]
    exact ⟨h, fun hcalm => absurd hpanic (Bool.eq_false_iff.mp hcalm), hlive⟩
  | false =>
    obtain ⟨passed, htokens, hcontrol⟩ := h.place
    obtain ⟨rest, hupcoming⟩ := d.upcoming_eq_cons
    rw [hupcoming] at htokens
    refine h.report hproblem hpanic htokens (fun hsheltered => ⟨?_, ?_⟩) hlive hexcused
    · rw [← Bool.not_eq_true]
      exact fun hmark => hsheltered.plain ((hcontrol hmark).concat hsheltered.inner)
    · rw [hupcoming, stretchEnd_cons hsheltered.inner]
      exact hsheltered.semicolon

/-- **A report at the token just passed.** -/
theorem Within.failAtPrevious (h : Within source n worded live d)
    (hexcused : ¬Excused source (d.failAtPrevious problem)) :
    Within source n worded live (d.failAtPrevious problem) := by
  cases hpanic : d.panicking with
  | true =>
    rw [Draft.failAtPrevious, report_of_panicking hpanic]
    exact h
  | false =>
    obtain ⟨before, htokens, hcontrol⟩ := h.exists_before hpanic
    refine h.report hproblem hpanic htokens (fun hsheltered => ⟨?_, hsheltered.semicolon⟩) h.live
      hexcused
    rw [← Bool.not_eq_true]
    exact fun hmark => hsheltered.plain (hcontrol hmark)

/-- Behind a block or a statement with a body, a report excuses. -/
theorem Concluded.excused_failAtPrevious (h : Concluded source n d) :
    Excused source (d.failAtPrevious problem) := by
  obtain ⟨before, htokens, hexposed⟩ := h.exposed
  exact h.unalarmed.excused_report hproblem h.still htokens hexposed

end Reports

end Draft

end Lox
