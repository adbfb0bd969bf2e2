import Lox.Proofs.Draft.Invariants
import Lox.Proofs.Token.Tiling
import Mathlib.Order.Nat

/-!
# Where a draft stands

A draft reads the tokens of a source in their order and stands between two of them. So the token
just passed is before all those that are still to be read, in the text as well as by its line,
whatever has been passed over in recovery or skipped.

## Main definitions

* `Token.position`: where a token starts, and the line it ends on.
* `sourceTokens`: the tokens of a source and the empty one at its end.
* `Draft.upcoming`: the tokens still to be read.
* `Draft.Along`: the draft stands somewhere in a source.

## Main results

* `pairwise_sourceTokens`: the tokens of a source are in the order of their positions.
* `Steps.along`: compiling goes along the source.
-/

namespace Lox

/-- Where a token starts, and the line it ends on. -/
def Token.position (t : Token) : Nat × Nat := (t.span.start, t.line)

/-! ### The tokens of a source -/

section SourceTokens

variable {source : String} {t : Token}

/-- The tokens of a source and the empty one at its end. -/
def sourceTokens (source : String) : List Token := (scan source).tokens ++ [(scan source).last]

theorem mem_sourceTokens : t ∈ sourceTokens source ↔ t ∈ (scan source).tokens ∨ t = endToken source := by
  rw [sourceTokens, List.mem_append, List.mem_singleton]
  rfl

/-- No token is behind the end. -/
theorem position_le_endToken (ht : t ∈ (scan source).tokens) :
    t.position ≤ (endToken source).position := by
  obtain ⟨before, text, after, hsource, hstands⟩ := (tiles_scan source).exists_standsAt ht
  have hsize : source.utf8ByteSize = byteSize (before ++ text ++ after) := by
    rw [byteSize, ← hsource, String.ofList_toList]
  refine ⟨?_, ?_⟩
  · show t.span.start ≤ source.utf8ByteSize
    rw [hstands.span, hsize]
    simp only [List.nil_append, byteSize_append]
    omega
  · show t.line ≤ 1 + source.toList.count '\n'
    rw [hstands.line, hsource]
    simp only [List.nil_append, List.count_append]
    omega

/-- **The tokens of a source** are in the order of their positions. -/
theorem pairwise_sourceTokens (source : String) :
    (sourceTokens source).Pairwise fun t u => t.position ≤ u.position := by
  refine List.pairwise_append.mpr ⟨?_, List.pairwise_singleton _ _, ?_⟩
  · refine (tiles_scan source).pairwise.imp_of_mem fun ht _ hle => ⟨?_, hle.2⟩
    obtain ⟨_, _, _, -, hstands⟩ := (tiles_scan source).exists_standsAt ht
    exact Nat.le_trans (Nat.le_of_lt hstands.start_lt_stop) hle.1
  · intro t ht u hu
    rw [List.mem_singleton.mp hu]
    exact position_le_endToken ht

/-- Lines are counted from 1. -/
theorem one_le_line (ht : t ∈ sourceTokens source) : 1 ≤ t.line := by
  obtain ht | rfl := mem_sourceTokens.mp ht
  · exact Nat.le_trans (Nat.le_add_right 1 _) ((tiles_scan source).start_le ht).2
  · exact Nat.le_add_right 1 _

theorem line_le_of_mem_sourceTokens (ht : t ∈ sourceTokens source) :
    t.line ≤ 1 + source.toList.count '\n' := by
  obtain ht | rfl := mem_sourceTokens.mp ht
  · exact (position_le_endToken ht).2
  · exact Nat.le_refl _

end SourceTokens

namespace Draft

variable {d d' : Draft} {source : String} {tokens : List Token} {t : Token}

/-- The tokens still to be read, with the empty one at the end of the source. -/
def upcoming (d : Draft) : List Token := d.ahead ++ [d.last]

theorem current_mem_upcoming (d : Draft) : d.current ∈ d.upcoming := by
  rw [current, upcoming]
  cases d.ahead with
  | nil => exact List.mem_singleton_self _
  | cons t ahead => exact List.mem_append_left _ List.mem_cons_self

/-- What is read next is the current token, and then what comes behind it. -/
theorem upcoming_eq_cons (d : Draft) : ∃ rest, d.upcoming = d.current :: rest := by
  rw [current, upcoming]
  cases d.ahead with
  | nil => exact ⟨[], rfl⟩
  | cons t ahead => exact ⟨ahead ++ [d.last], rfl⟩

theorem suffix_append_singleton {l l' : List Token} (h : l <:+ l') (t : Token) :
    l ++ [t] <:+ l' ++ [t] := by
  obtain ⟨passed, rfl⟩ := h
  exact ⟨passed, (List.append_assoc ..).symm⟩

/-- Passing the current token leaves some of the tokens behind it. -/
theorem upcoming_advance (d : Draft) : d.advance.upcoming <:+ d.ahead.tail ++ [d.last] := by
  obtain ⟨rest, panicking, diagnostics, heq, hrest⟩ := exists_advance_eq d
  rw [heq]
  exact suffix_append_singleton hrest d.last

/-- Where a draft comes to, the current token is no error. -/
theorem error?_current_comeTo (hlast : d.last.kind.error? = none) (tokens : List Token) :
    (d.comeTo tokens).current.kind.error? = none := by
  induction tokens generalizing d with
  | nil => exact hlast
  | cons t tokens ih =>
    rw [comeTo]
    split
    · next cause _ =>
      obtain ⟨diagnostics, heq, -⟩ := exists_report_eq d t (.lexical cause)
      refine ih ?_
      rw [heq]
      exact hlast
    · next hkind =>
      show t.kind.error? = none
      unfold TokenKind.error?
      split
      · next cause hcause => exact absurd hcause (hkind cause)
      · rfl

/-! ### Standing in a source -/

/-- The draft stands somewhere in the source, behind the token that it has just passed. In front of
the first token there is an empty one. -/
structure Along (source : String) (d : Draft) : Prop where
  upcoming : d.upcoming <:+ sourceTokens source
  last : d.last = endToken source
  current : d.current.kind.error? = none
  previous : ∀ t ∈ d.upcoming, d.previous.position ≤ t.position
  passed : d.previous ∈ sourceTokens source ∨ d.previous = .atEnd 0 1

/-- Only the tokens have a part in it. -/
theorem Along.of_eq (h : d.Along source) (hprevious : d'.previous = d.previous)
    (hahead : d'.ahead = d.ahead) (hlast : d'.last = d.last) : d'.Along source := by
  have hupcoming : d'.upcoming = d.upcoming := by rw [Draft.upcoming, Draft.upcoming, hahead, hlast]
  have hcurrent : d'.current = d.current := by rw [Draft.current, Draft.current, hahead, hlast]
  exact ⟨hupcoming ▸ h.upcoming, hlast ▸ h.last, hcurrent ▸ h.current,
    hprevious ▸ hupcoming ▸ h.previous, hprevious ▸ h.passed⟩

/-- The token just passed is on a line. -/
theorem Along.line (h : d.Along source) : 1 ≤ d.previous.line := by
  obtain hmem | heq := h.passed
  · exact one_le_line hmem
  · rw [heq]
    exact Nat.le_refl 1

theorem Along.pairwise (h : d.Along source) :
    d.upcoming.Pairwise fun t u => t.position ≤ u.position :=
  (pairwise_sourceTokens source).sublist h.upcoming.sublist

/-- Everything still to be read comes no earlier than the current token. -/
theorem Along.current_le (h : d.Along source) (ht : t ∈ d.upcoming) :
    d.current.position ≤ t.position := by
  obtain ⟨rest, heq⟩ := d.upcoming_eq_cons
  have hpairwise := h.pairwise
  rw [heq] at ht hpairwise
  obtain rfl | ht := List.mem_cons.mp ht
  · exact le_refl d.current.position
  · exact List.rel_of_pairwise_cons hpairwise ht

theorem Along.current_mem (h : d.Along source) : d.current ∈ sourceTokens source :=
  h.upcoming.subset d.current_mem_upcoming

theorem Along.advance (h : d.Along source) : d.advance.Along source := by
  have hbehind : d.ahead.tail ++ [d.last] <:+ d.upcoming :=
    suffix_append_singleton (List.tail_suffix _) _
  have hupcoming : d.advance.upcoming <:+ d.upcoming := d.upcoming_advance.trans hbehind
  have hstep : Step true d d.advance := .advance d
  refine ⟨hupcoming.trans h.upcoming, hstep.tokens.2.trans h.last, ?_, ?_, ?_⟩
  · exact error?_current_comeTo (d := { d with previous := d.current }) (h.last ▸ rfl) _
  · intro t ht
    rw [previous_advance]
    exact h.current_le (hupcoming.subset ht)
  · rw [previous_advance]
    exact .inl h.current_mem

theorem Step.along (hstep : Step true d d') (h : d.Along source) : d'.Along source := by
  cases hstep with
  | report t problem =>
    obtain ⟨diagnostics, heq, -⟩ := exists_report_eq d t problem
    rw [heq]
    exact h.of_eq rfl rfl rfl
  | advance => exact h.advance
  | calm | stall | write | patch | constant | intern | remember | scope => exact h.of_eq rfl rfl rfl

/-- **Compiling goes along the source.** -/
theorem Steps.along (hsteps : Steps true d d') (h : d.Along source) : d'.Along source := by
  induction hsteps with
  | refl => exact h
  | tail _ hstep ih => exact hstep.along ih

/-- At the start everything is still to be read, but for the errors before the first token that is
none. -/
theorem along_start (source : String) (maxLocals : Nat) (interner : Interner) :
    (start source maxLocals interner).Along source := by
  have hcurrent : (start source maxLocals interner).current.kind.error? = none :=
    error?_current_comeTo rfl _
  obtain ⟨ahead, panicking, diagnostics, hstart, hahead⟩ := exists_start_eq source maxLocals interner
  rw [hstart] at hcurrent ⊢
  have hupcoming := suffix_append_singleton hahead (scan source).last
  refine ⟨hupcoming, rfl, hcurrent, fun t ht => ⟨Nat.zero_le _, ?_⟩, .inr rfl⟩
  exact one_le_line (hupcoming.subset ht)

end Draft

end Lox
