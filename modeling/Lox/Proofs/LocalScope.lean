import Lox.LocalScope.Stack
import Lox.Proofs.Draft.Scopes
import Mathlib.Data.List.Basic

/-!
# Lexical scoping

A list of locals with depths answers like a stack of scopes, as long as requests come in the order
that declarations and blocks have in a source. So a name means its latest declaration in the
innermost scope that has it, closing a scope brings back what was there before it was opened, and
every slot fits into a byte.

## Main definitions

* `ScopeStack.tracker`: the list of locals that keeps a stack of scopes.
* `ScopeStack.Orderly`: no more locals are alive than may be, and a name is pending in a scope only.

## Main results

* `ScopeStack.serve_tracker`: one request is served alike.
* `ScopeStack.tail_scopes_serveScopes`: what lies under a scope is untouched while it is open.
* `LocalScope.lexical_scoping`: any requests are served alike, and scopes are restored.
-/

namespace Lox

namespace ScopeStack

variable {s : ScopeStack} {name : String}

/-! ### Positions -/

theorem count_eq (scopes : Scopes) : count scopes = scopes.names.length := by
  simp [count, Scopes.names]

/-- A slot is the place of the latest declaration in the innermost scope that has the name. -/
theorem slot?_names (name : String) (scopes : Scopes) :
    slot? name scopes.names = position? name scopes := by
  induction scopes with
  | nil => rfl
  | cons scope outer ih =>
    rw [position?, count_eq, ← ih]
    show slot? name (scope ++ Scopes.names outer) = _
    clear ih
    induction scope with
    | nil => simp
    | cons other scope ih =>
      rw [List.cons_append, slot?]
      by_cases hname : other = name
      · subst hname
        simp [Nat.add_comm]
      · rw [if_neg hname, ih, List.idxOf_cons_ne _ hname, List.length_cons]
        have hmem : name ∈ other :: scope ↔ name ∈ scope := by simp [Ne.symm hname]
        have hplace : scope.length + 1 - 1 - (scope.idxOf name).succ =
            scope.length - 1 - scope.idxOf name := by omega
        simp only [hmem, hplace]

theorem position?_eq_none_iff {scopes : Scopes} :
    position? name scopes = none ↔ ∀ scope ∈ scopes, name ∉ scope := by
  rw [← slot?_names, LocalScope.slot?_eq_none_iff]
  simp [Scopes.names]

theorem position?_lt {scopes : Scopes} {slot : Nat} (h : position? name scopes = some slot) :
    slot < count scopes := by
  rw [← slot?_names] at h
  rw [count_eq]
  exact LocalScope.slot?_lt h

/-! ### One request -/

/-- The list of locals that keeps the scopes. -/
def tracker (s : ScopeStack) : LocalScope := .ofScopes s.limit s.scopes s.pending

/-- No more locals are alive than may be, one that is pending included, and that is in a scope. -/
structure Orderly (s : ScopeStack) : Prop where
  room : count s.scopes + s.pending.toList.length ≤ s.limit
  limit : s.limit ≤ 256
  pending : s.pending ≠ none → s.scopes ≠ []

theorem orderly_start (maxLocals : Nat) : (start maxLocals).Orderly where
  room := Nat.zero_le _
  limit := Nat.min_le_right _ _
  pending h := absurd rfl h

theorem tracker_start (maxLocals : Nat) : (start maxLocals).tracker = .start maxLocals := rfl

/-- **One request** is served alike by a stack of scopes and by the list of locals that keeps it. -/
theorem serve_tracker (hs : s.Orderly) {r : ScopeRequest} (hallows : s.Allows r) :
    s.tracker.serve r = ((s.serve r).1, (s.serve r).2.tracker) ∧ (s.serve r).2.Orderly := by
  obtain ⟨scopes, pending, limit⟩ := s
  obtain ⟨hroom, hlimit, hpending⟩ := hs
  cases r with
  | enter =>
    obtain rfl : pending = none := hallows
    exact ⟨congrArg (Prod.mk _) (LocalScope.enter_ofScopes limit scopes), by simpa [serve, count],
      hlimit, fun h => absurd rfl h⟩
  | leave =>
    obtain ⟨rfl, hopen⟩ : pending = none ∧ scopes ≠ [] := hallows
    obtain ⟨scope, outer, rfl⟩ := List.exists_cons_of_ne_nil hopen
    have hleave : (tracker ⟨scope :: outer, none, limit⟩).leave = tracker ⟨outer, none, limit⟩ :=
      LocalScope.leave_ofScopes limit scope outer
    refine ⟨?_, ?_, hlimit, fun h => absurd rfl h⟩
    · rw [LocalScope.serve, hleave]
      simp [tracker, serve, Scopes.names]
    · simp only [serve, count, List.tail_cons, List.map_cons, List.sum_cons] at hroom ⊢
      omega
  | declare name =>
    obtain ⟨rfl, hopen⟩ : pending = none ∧ scopes ≠ [] := hallows
    obtain ⟨scope, outer, rfl⟩ := List.exists_cons_of_ne_nil hopen
    have hdeclare := LocalScope.declare_ofScopes limit scope outer name
    rw [← count_eq] at hdeclare
    rw [LocalScope.serve, serve, tracker, hdeclare]
    simp only [List.headD_cons]
    by_cases hmem : name ∈ scope
    · rw [if_pos hmem, if_pos hmem]
      exact ⟨rfl, hroom, hlimit, hpending⟩
    rw [if_neg hmem, if_neg hmem]
    by_cases hfull : count (scope :: outer) = limit
    · rw [if_pos hfull, if_pos (Nat.le_of_eq hfull.symm)]
      exact ⟨rfl, hroom, hlimit, hpending⟩
    · have hlt : count (scope :: outer) < limit := Nat.lt_of_le_of_ne hroom hfull
      rw [if_neg hfull, if_neg (Nat.not_le_of_lt hlt)]
      exact ⟨rfl, hlt, hlimit, fun _ => hopen⟩
  | complete =>
    obtain ⟨name, rfl⟩ := Option.ne_none_iff_exists'.mp hallows
    obtain ⟨scope, outer, rfl⟩ := List.exists_cons_of_ne_nil (hpending hallows)
    refine ⟨congrArg (Prod.mk _) (LocalScope.complete_ofScopes limit scope outer name), ?_, hlimit,
      fun h => absurd rfl h⟩
    simp only [serve, count, Option.elim_some, Scopes.declare, List.map_cons, List.sum_cons,
      List.length_cons, Option.toList_some, Option.toList_none, List.length_nil] at hroom ⊢
    omega
  | resolve name =>
    refine ⟨?_, by rw [serve]; split <;> exact ⟨hroom, hlimit, hpending⟩⟩
    rw [LocalScope.serve, serve, tracker, LocalScope.resolve_ofScopes, slot?_names]
    by_cases hname : pending = some name
    · simp only [hname, if_true]
      rfl
    · simp only [hname, if_false]
      -- A slot is below the number of locals alive, and so below what a byte can hold.
      have hfilter : (position? name scopes).filter (· < 256) = position? name scopes := by
        cases hslot : position? name scopes with
        | none => rfl
        | some slot =>
          have hlt : slot < 256 := Nat.lt_of_lt_of_le (position?_lt hslot)
            (Nat.le_trans (Nat.le_of_add_right_le hroom) hlimit)
          rw [Option.filter_some, if_pos (decide_eq_true hlt)]
      rw [hfilter]
      rfl

/-! ### What is under a scope -/

/-- Only opening and closing a scope changes what is under the innermost. -/
theorem exists_scopes_serve {scope : List String} {outer : Scopes} {r : ScopeRequest}
    (henter : r ≠ .enter) (hleave : r ≠ .leave) (hscopes : s.scopes = scope :: outer) :
    ∃ scope', (s.serve r).2.scopes = scope' :: outer := by
  cases r with
  | enter => exact absurd rfl henter
  | leave => exact absurd rfl hleave
  | declare name =>
    rw [serve]
    split
    · exact ⟨scope, hscopes⟩
    · split <;> exact ⟨scope, hscopes⟩
  | complete =>
    rw [serve, hscopes]
    cases s.pending with
    | none => exact ⟨scope, rfl⟩
    | some name => exact ⟨name :: scope, rfl⟩
  | resolve name =>
    rw [serve]
    split <;> exact ⟨scope, hscopes⟩

theorem limit_serve (s : ScopeStack) (r : ScopeRequest) : (s.serve r).2.limit = s.limit := by
  cases r with
  | enter | leave | complete => rfl
  | declare name =>
    rw [serve]
    split
    · rfl
    · split <;> rfl
  | resolve name =>
    rw [serve]
    split <;> rfl

theorem limit_serveScopes (s : ScopeStack) (rs : List ScopeRequest) :
    (serveScopes serve s rs).2.limit = s.limit := by
  induction rs generalizing s with
  | nil => rfl
  | cons r rs ih => exact (ih _).trans (limit_serve s r)

end ScopeStack

/-! ### Many requests -/

section Many

variable {σ : Type} {serve : σ → ScopeRequest → ScopeReply × σ}

theorem serveScopes_append (s : σ) (rs rs' : List ScopeRequest) :
    serveScopes serve s (rs ++ rs') =
      ((serveScopes serve s rs).1 ++ (serveScopes serve (serveScopes serve s rs).2 rs').1,
        (serveScopes serve (serveScopes serve s rs).2 rs').2) := by
  induction rs generalizing s with
  | nil => rfl
  | cons r rs ih => simp only [List.cons_append, serveScopes, ih]

end Many

namespace ScopeStack

variable {s : ScopeStack}

theorem allowsAll_append (s : ScopeStack) (rs rs' : List ScopeRequest) :
    s.AllowsAll (rs ++ rs') ↔ s.AllowsAll rs ∧ (serveScopes serve s rs).2.AllowsAll rs' := by
  induction rs generalizing s with
  | nil => exact (iff_of_eq (true_and _)).symm
  | cons r rs ih =>
    rw [List.cons_append, AllowsAll, AllowsAll, ih, and_assoc]
    rfl

/-- **What is under a scope** stays as long as the scope is open. -/
theorem exists_scopes_serveScopes {rs : List ScopeRequest} (hrs : ScopeRequest.Balanced rs)
    {scope : List String} {outer : Scopes} (hscopes : s.scopes = scope :: outer) :
    ∃ scope', (serveScopes serve s rs).2.scopes = scope' :: outer := by
  induction hrs generalizing s scope outer with
  | nil => exact ⟨scope, hscopes⟩
  | cons enter leave rest ih =>
    obtain ⟨scope', hscopes'⟩ := exists_scopes_serve enter leave hscopes
    exact ih hscopes'
  | @scope rs rs' inside rest ihInside ihRest =>
    have hopened : (s.serve .enter).2.scopes = [] :: s.scopes := rfl
    obtain ⟨inner, hinner⟩ := ihInside hopened
    rw [serveScopes]
    simp only [serveScopes_append, serveScopes]
    have hclosed : List.tail (serveScopes serve (s.serve .enter).2 rs).2.scopes = scope :: outer := by
      rw [hinner, List.tail_cons, hscopes]
    exact ihRest hclosed

/-- **Any requests** that may be made are served alike. -/
theorem serveScopes_tracker (hs : s.Orderly) {rs : List ScopeRequest} (hallows : s.AllowsAll rs) :
    serveScopes LocalScope.serve s.tracker rs =
      ((serveScopes serve s rs).1, (serveScopes serve s rs).2.tracker) ∧
      (serveScopes serve s rs).2.Orderly := by
  induction rs generalizing s with
  | nil => exact ⟨rfl, hs⟩
  | cons r rs ih =>
    obtain ⟨hserve, hs'⟩ := serve_tracker hs hallows.1
    obtain ⟨hrest, hs''⟩ := ih hs' hallows.2
    refine ⟨?_, hs''⟩
    simp only [serveScopes, hserve, hrest]

/-- **Closing a scope** brings back what was there when it was opened. -/
theorem restored_of_balanced {inside : List ScopeRequest} (hinside : ScopeRequest.Balanced inside)
    (hallows : s.AllowsAll (.enter :: (inside ++ [.leave]))) :
    (serveScopes serve s (.enter :: (inside ++ [.leave]))).2 = s := by
  obtain ⟨henter, hrest⟩ := hallows
  obtain ⟨-, hleave, -⟩ := (allowsAll_append _ _ _).mp hrest
  obtain ⟨inner, hinner⟩ := exists_scopes_serveScopes hinside (s := (s.serve .enter).2) rfl
  have hlimit := limit_serveScopes (s.serve .enter).2 inside
  rw [serveScopes]
  simp only [serveScopes_append, serveScopes]
  obtain ⟨scopes, pending, limit⟩ := s
  obtain rfl : pending = none := henter
  generalize (serveScopes serve (serve ⟨scopes, none, limit⟩ .enter).2 inside).2 = e
    at hinner hlimit hleave ⊢
  obtain ⟨scopes', pending', limit'⟩ := e
  obtain rfl : pending' = none := hleave.1
  obtain rfl : scopes' = inner :: scopes := hinner
  obtain rfl : limit' = limit := hlimit
  rfl

end ScopeStack

/-- **Lexical scoping.** Whatever is asked of a list of locals, in an order in which it may be asked,
the answers are those of a stack of scopes, and the list is the one that keeps the stack. A name has
no place only if no scope has it, and every place fits into a byte. Where a scope is closed, the
locals and the depth are again those from before it was opened. -/
theorem LocalScope.lexical_scoping (maxLocals : Nat) (requests : List ScopeRequest)
    (h : (ScopeStack.start maxLocals).AllowsAll requests) :
    let answered := serveScopes LocalScope.serve (.start maxLocals) requests
    let specified := serveScopes ScopeStack.serve (.start maxLocals) requests
    answered.1 = specified.1 ∧ answered.2 = specified.2.tracker ∧
      (∀ name, (ScopeStack.position? name specified.2.scopes = none ↔
          ∀ scope ∈ specified.2.scopes, name ∉ scope) ∧
        ∀ slot, ScopeStack.position? name specified.2.scopes = some slot → slot < 256) ∧
      ∀ before inside after, requests = before ++ .enter :: (inside ++ .leave :: after) →
        ScopeRequest.Balanced inside →
        (serveScopes LocalScope.serve (.start maxLocals)
          (before ++ .enter :: (inside ++ [.leave]))).2 =
        (serveScopes LocalScope.serve (.start maxLocals) before).2 := by
  have hstart := ScopeStack.orderly_start maxLocals
  obtain ⟨hserved, horderly⟩ := ScopeStack.serveScopes_tracker hstart h
  rw [ScopeStack.tracker_start] at hserved
  refine ⟨congrArg Prod.fst hserved, congrArg Prod.snd hserved, fun name => ?_, ?_⟩
  · refine ⟨ScopeStack.position?_eq_none_iff, fun slot hslot => ?_⟩
    have hlt := ScopeStack.position?_lt hslot
    have hroom := horderly.room
    have hlimit := horderly.limit
    omega
  · rintro before inside after rfl hinside
    have hsplit : before ++ .enter :: (inside ++ .leave :: after) =
        (before ++ .enter :: (inside ++ [.leave])) ++ after := by simp
    rw [hsplit, ScopeStack.allowsAll_append] at h
    have hbefore := (ScopeStack.allowsAll_append _ _ _).mp h.1
    have hrestored := ScopeStack.restored_of_balanced hinside hbefore.2
    have hwhole := (ScopeStack.serveScopes_tracker hstart h.1).1
    have hpart := (ScopeStack.serveScopes_tracker hstart hbefore.1).1
    rw [ScopeStack.tracker_start] at hwhole hpart
    rw [hwhole, hpart, serveScopes_append, hrestored]

/-- With two locals at most, a name is shadowed, found again once its scope is closed, and refused
in its own initial value, in its own scope and at the limit. -/
theorem LocalScope.lexical_scoping_of_shadowing :
    let requests : List ScopeRequest := [.enter, .declare "a", .resolve "a", .complete, .enter,
      .declare "a", .complete, .resolve "a", .declare "a", .declare "b", .leave, .resolve "a"]
    (ScopeStack.start 2).AllowsAll requests ∧
      (serveScopes LocalScope.serve (.start 2) requests).1 =
        [.done, .done, .refused .readInOwnInitializer, .done, .done, .done, .done, .slot (some 1),
          .refused .redeclared, .refused .tooManyLocals, .dropped 1, .slot (some 0)] :=
  ⟨by decide, (LocalScope.lexical_scoping 2 _ (by decide)).1.trans (by decide)⟩

end Lox
