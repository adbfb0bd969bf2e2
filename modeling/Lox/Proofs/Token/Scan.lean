import Lox.Proofs.Draft.Invariants
import Lox.Proofs.Token.Longest

/-!
# The tokens of a source

Scanning marks the end of a source by a token that stands apart, and cuts strings out with their
quotes. So a token of a source is proper as soon as it is no error.

## Main results

* `isProper_of_mem_scan`: tokens of a source that are no errors are proper.
-/

namespace Lox

namespace Place

/-- What is read at a place is the longest token behind the gap. -/
theorem next?_eq_some_iff {p q : Place} {t : Token} :
    p.next? = some (t, q) ↔ ∃ c rest, p.skipGap.rest = c :: rest ∧
      q = p.skipGap.move (longestToken c rest).2 ∧
      t = ⟨(longestToken c rest).1, String.ofList ((c :: rest).take (longestToken c rest).2),
        ⟨p.skipGap.offset, q.offset⟩, q.line⟩ := by
  rw [next?]
  cases hrest : p.skipGap.rest with
  | nil => simp
  | cons c rest =>
    simp only [Option.some.injEq, Prod.mk.injEq, List.cons.injEq]
    constructor
    · rintro ⟨rfl, rfl⟩
      exact ⟨c, rest, ⟨rfl, rfl⟩, rfl, rfl⟩
    · rintro ⟨_, _, ⟨rfl, rfl⟩, rfl, rfl⟩
      exact ⟨rfl, rfl⟩

theorem exists_of_mem_tokens {p : Place} {t : Token} (h : t ∈ p.tokens) :
    ∃ c rest, t.kind = (longestToken c rest).1 ∧
      t.lexeme = String.ofList ((c :: rest).take (longestToken c rest).2) := by
  induction hn : p.rest.length using Nat.strongRecOn generalizing p with
  | ind n ih =>
    rw [tokens_eq] at h
    cases hnext : p.next? with
    | none =>
      rw [hnext] at h
      exact absurd h List.not_mem_nil
    | some pair =>
      obtain ⟨u, q⟩ := pair
      rw [hnext] at h
      rcases List.mem_cons.mp h with rfl | hmem
      · obtain ⟨c, rest, -, -, rfl⟩ := next?_eq_some_iff.mp hnext
        exact ⟨c, rest, rfl, rfl⟩
      · exact ih _ (hn ▸ length_rest_lt_of_next? hnext) hmem rfl

end Place

/-- **Tokens of a source** that are no errors are proper. -/
theorem isProper_of_mem_scan {source : String} {t : Token} (h : t ∈ (scan source).tokens)
    (herror : t.kind.error? = none) : t.IsProper := by
  obtain ⟨c, rest, hkind, hlexeme⟩ := Place.exists_of_mem_tokens h
  refine ⟨herror, hkind ▸ longestToken_kind_ne c rest, fun hstring => ?_⟩
  obtain ⟨rfl, heq⟩ := longestToken_of_kind_eq_string (hkind.symm.trans hstring)
  rw [hlexeme, heq]
  exact exists_quoted_of_stringToken (heq ▸ hkind.symm.trans hstring)

/-- No token of a source is the end of it. -/
theorem kind_ne_of_mem_scan {source : String} {t : Token} (h : t ∈ (scan source).tokens) :
    t.kind ≠ .endOfSource := by
  obtain ⟨c, rest, hkind, -⟩ := Place.exists_of_mem_tokens h
  exact hkind ▸ longestToken_kind_ne c rest

end Lox
