import Lox.Proofs.Composition.Evaluation
import Lox.Proofs.Composition.Program
import Lox.Proofs.Preservation

/-!
# Running joined sources

Two sources that are joined by a line feed and run as one behave as if the first were run and then,
if it has ended normally, the second were compiled and run in the world that the first has left.
Constants have other numbers in the joined source and symbols other indices, but neither can be seen.

## Main results

* `World.behaves_iff`: a source behaves as the program that it spells.
* `World.behaves_join`: joined sources behave as one after the other.
-/

namespace Lox

variable {limits : Limits} {w : World} {source a b : String} {c : Compilation}
  {ds es program : List Decl} {behaviour : Behaviour}

/-! ### Single sources -/

/-- A run that ends as an evaluation shows the same. -/
theorem Outcome.Matches.behaviour_eq {o : Outcome} {r : Evaluated Unit} (h : o.Matches r) :
    o.behaviour = r.behaviour := by
  cases r with
  | done x s =>
    obtain ⟨hresult, hglobals⟩ := h
    rw [Outcome.behaviour, hresult, hglobals]
    rfl
  | failed fault s =>
    obtain ⟨⟨e, hresult, hmessage⟩, hglobals⟩ := h
    rw [Outcome.behaviour, hresult, hglobals]
    exact congrArg (Behaviour.failed · _) hmessage
  | unfinished => exact h.elim

/-- In a world in order, a run of a source follows the evaluation of the program it spells. -/
theorem World.run_of_spells (hw : w.WellFormed) (h : Spells limits source program)
    (hc : Lox.compile limits w.interner source = some c) (hsuccess : c.isSuccess = true)
    (bound : Nat) :
    (Decl.execAll bound program (.start w.globalsByName) = .unfinished ∧
        (Machine.start { w with interner := c.interner }).run c.chunk bound = none) ∨
      ∃ limit o, (Machine.start { w with interner := c.interner }).run c.chunk limit = some o ∧
        o.Matches (Decl.execAll bound program (.start w.globalsByName)) ∧ o.world.WellFormed := by
  have hgrows := grows_of_compile hc
  have hrun := run_of_compile hc hsuccess h.derives (hw.grow hgrows) (.refl _) bound
  rwa [hw.globalsByName_grow hgrows] at hrun

/-- A run that ends has come to what the evaluation comes to, from some bound on. -/
theorem World.Ends.exists_least (hw : w.WellFormed) (h : Spells limits source program) {o : Outcome}
    (hends : w.Ends limits source o) : o.world.WellFormed ∧ ∃ least, ∀ bound, least ≤ bound →
      o.Matches (Decl.execAll bound program (.start w.globalsByName)) := by
  obtain ⟨c, w', limit, hcompile, hsuccess, hrun⟩ := hends
  obtain ⟨hc, rfl⟩ := World.compile_eq_some_iff.mp hcompile
  have hmatches : ∀ bound, limit ≤ bound →
      o.Matches (Decl.execAll bound program (.start w.globalsByName)) ∧ o.world.WellFormed := by
    intro bound hle
    rcases World.run_of_spells hw h hc hsuccess bound with
      ⟨-, hnone⟩ | ⟨limit', o', hrun', hmatches, hworld⟩
    · exact absurd (hnone.symm.trans (Machine.run_of_le hrun hle)) (by rintro ⟨⟩)
    · obtain rfl := Machine.run_unique hrun' hrun
      exact ⟨hmatches, hworld⟩
  exact ⟨(hmatches limit (Nat.le_refl _)).2, limit, fun bound hle => (hmatches bound hle).1⟩

theorem World.NeverEnds.behaves (hw : w.WellFormed) (h : Spells limits source program)
    (hnever : w.NeverEnds limits source) : Decl.Behaves program w.globalsByName .endless := by
  obtain ⟨c, w', hcompile, hsuccess, hrun⟩ := hnever
  obtain ⟨hc, rfl⟩ := World.compile_eq_some_iff.mp hcompile
  refine ⟨0, fun bound _ => ?_⟩
  rcases World.run_of_spells hw h hc hsuccess bound with ⟨hunfinished, -⟩ | ⟨limit, o, hsome, -⟩
  · rw [hunfinished]
    rfl
  · exact absurd ((hrun limit).symm.trans hsome) (by rintro ⟨⟩)

/-- A source that spells a program either ends or does not. -/
theorem World.ends_or_neverEnds (h : Spells limits source program) (w : World) :
    (∃ o, w.Ends limits source o) ∨ w.NeverEnds limits source := by
  obtain ⟨c, hc, hsuccess⟩ := h.exists_compile w.interner
  have hcompile := World.compile_eq_some_iff.mpr ⟨hc, rfl⟩
  by_cases hends : ∃ limit, (Machine.start { w with interner := c.interner }).run c.chunk limit ≠ none
  · obtain ⟨limit, hends⟩ := hends
    obtain ⟨o, ho⟩ := Option.ne_none_iff_exists'.mp hends
    exact .inl ⟨o, c, _, limit, hcompile, hsuccess, ho⟩
  · exact .inr ⟨c, _, hcompile, hsuccess, fun limit => not_not.mp (not_exists.mp hends limit)⟩

/-- **A source behaves as the program** that it spells. -/
theorem World.behaves_iff (hw : w.WellFormed) (h : Spells limits source program) :
    w.Behaves limits source behaviour ↔ Decl.Behaves program w.globalsByName behaviour := by
  have hforward : ∀ {behaviour}, w.Behaves limits source behaviour →
      Decl.Behaves program w.globalsByName behaviour := by
    intro behaviour hbehaves
    cases hbehaves with
    | halts hends =>
      obtain ⟨-, least, hmatches⟩ := hends.exists_least hw h
      exact ⟨least, fun bound hle => (hmatches bound hle).behaviour_eq.symm⟩
    | endless hnever => exact hnever.behaves hw h
  refine ⟨hforward, fun hbehaves => ?_⟩
  rcases World.ends_or_neverEnds h w with ⟨o, hends⟩ | hnever
  · rw [hbehaves.unique (hforward (.halts hends))]
    exact .halts hends
  · rw [hbehaves.unique (hforward (.endless hnever))]
    exact .endless hnever

/-! ### Two sources -/

/-- Sources that are run in turn behave as their programs do, one after the other. -/
theorem World.BehavesInTurn.behaves (hw : w.WellFormed) (ha : Spells limits a ds)
    (hb : Spells limits b es) (h : w.BehavesInTurn limits a b behaviour) :
    Decl.Behaves (ds ++ es) w.globalsByName behaviour := by
  cases h with
  | @both o lines next hends hnormal hnext =>
    obtain ⟨hworld, least, hmatches⟩ := hends.exists_least hw ha
    have hmatch := hmatches least (Nat.le_refl _)
    cases hexec : Decl.execAll least ds (.start w.globalsByName) with
    | done x s =>
      rw [hexec] at hmatch
      obtain ⟨hresult, hglobals⟩ := hmatch
      obtain rfl : lines = s.output := Except.ok.inj (hnormal.symm.trans hresult)
      have hbehaves := (World.behaves_iff hworld hb).mp hnext
      rw [hglobals] at hbehaves
      exact hbehaves.append_of_done hexec
    | failed fault s =>
      rw [hexec] at hmatch
      obtain ⟨⟨e, hresult, -⟩, -⟩ := hmatch
      cases hnormal.symm.trans hresult
    | unfinished =>
      rw [hexec] at hmatch
      exact hmatch.elim
  | @failed o e hends herror =>
    obtain ⟨-, least, hmatches⟩ := hends.exists_least hw ha
    have hmatch := hmatches least (Nat.le_refl _)
    rw [hmatch.behaviour_eq]
    cases hexec : Decl.execAll least ds (.start w.globalsByName) with
    | done x s =>
      rw [hexec] at hmatch
      cases herror.symm.trans hmatch.1
    | failed fault s => exact Decl.Behaves.append_of_failed hexec es
    | unfinished =>
      rw [hexec] at hmatch
      exact hmatch.elim
  | endless hnever => exact (hnever.behaves hw ha).append_of_endless es

theorem World.exists_behavesInTurn (ha : Spells limits a ds) (hb : Spells limits b es) (w : World) :
    ∃ behaviour, w.BehavesInTurn limits a b behaviour := by
  rcases World.ends_or_neverEnds ha w with ⟨o, hends⟩ | hnever
  · cases hresult : o.result with
    | ok lines =>
      rcases World.ends_or_neverEnds hb o.world with ⟨o', hends'⟩ | hnever
      · exact ⟨_, .both hends hresult (.halts hends')⟩
      · exact ⟨_, .both hends hresult (.endless hnever)⟩
    | error e => exact ⟨_, .failed hends hresult⟩
  · exact ⟨_, .endless hnever⟩

/-- **Sequential composition.** Two sources that compile without a report can be joined by a line
feed if and only if their pools together have places for 256 constants. If they can, then in any
world in order they behave in one way only, whether they are run as one source or one after the
other. -/
theorem World.behaves_join {limits : Limits} {i j : Interner} {a b : String} {c d : Compilation}
    (hc : Lox.compile limits i a = some c) (hcsuccess : c.isSuccess = true)
    (hd : Lox.compile limits j b = some d) (hdsuccess : d.isSuccess = true) (k : Interner) :
    ((∃ e, Lox.compile limits k (a ++ "\n" ++ b) = some e ∧ e.isSuccess = true) ↔
        poolSize (c.data ++ d.data) ≤ 256) ∧
      ((∃ e, Lox.compile limits k (a ++ "\n" ++ b) = some e ∧ e.isSuccess = true) →
        ∀ w : World, w.WellFormed → ∃ behaviour, ∀ other,
          (w.Behaves limits (a ++ "\n" ++ b) other ↔ other = behaviour) ∧
          (w.BehavesInTurn limits a b other ↔ other = behaviour)) := by
  obtain ⟨ds, ha, hcdata⟩ := spells_of_compile hc hcsuccess
  obtain ⟨es, hb, hddata⟩ := spells_of_compile hd hdsuccess
  have hiff := ha.compile_join_iff hb k
  refine ⟨?_, fun hjoin w hw => ?_⟩
  · rw [hiff, Compilation.data, Compilation.data, hcdata, hddata, Decl.programPool,
      Decl.programPool, Pool.poolSize_addAll_append]
    exact Iff.rfl
  · have hboth := ha.join hb (hiff.mp hjoin)
    obtain ⟨behaviour, hbehaviour⟩ := Decl.exists_behaves (ds ++ es) w.globalsByName
    have hunique : ∀ other, Decl.Behaves (ds ++ es) w.globalsByName other ↔ other = behaviour :=
      fun other => ⟨fun h => h.unique hbehaviour, fun h => h ▸ hbehaviour⟩
    refine ⟨behaviour, fun other => ⟨(World.behaves_iff hw hboth).trans (hunique other), ?_, ?_⟩⟩
    · exact fun h => (hunique other).mp (h.behaves hw ha hb)
    · rintro rfl
      obtain ⟨found, hfound⟩ := World.exists_behavesInTurn ha hb w
      rwa [← (hunique found).mp (hfound.behaves hw ha hb)]

/-- Two programs of which the second uses a global and a string of the first, in a world with a
global that both use. -/
theorem World.behaves_join_of_shared : ∃ o c d globals,
    World.empty.Ends {} "var x = \"u\";" o ∧
    Lox.compile {} .empty "var a = \"v\" + x;" = some c ∧ c.isSuccess = true ∧
    Lox.compile {} .empty "print a + \"v\" + x;" = some d ∧ d.isSuccess = true ∧
    o.world.Behaves {} ("var a = \"v\" + x;" ++ "\n" ++ "print a + \"v\" + x;")
      (.ended #["vuvu"] globals) ∧
    o.world.BehavesInTurn {} "var a = \"v\" + x;" "print a + \"v\" + x;"
      (.ended #["vuvu"] globals) := by
  have hbefore : ((Lox.compile {} World.empty.interner "var x = \"u\";").any fun c =>
      c.isSuccess && ((Machine.start { World.empty with interner := c.interner }).run c.chunk 9).any
        fun o => (Lox.compile {} o.world.interner
          ("var a = \"v\" + x;" ++ "\n" ++ "print a + \"v\" + x;")).any fun e =>
            e.isSuccess &&
              ((Machine.start { o.world with interner := e.interner }).run e.chunk 99).any
                (·.result.toOption == some #["vuvu"])) = true := by decide +kernel
  have hfirst : (Lox.compile {} .empty "var a = \"v\" + x;").any (·.isSuccess) = true := by
    decide +kernel
  have hsecond : (Lox.compile {} .empty "print a + \"v\" + x;").any (·.isSuccess) = true := by
    decide +kernel
  obtain ⟨b, hb, hboth⟩ := (Option.any_eq_true _ _).mp hbefore
  obtain ⟨hbsuccess, hruns⟩ := (Bool.and_eq_true _ _).mp hboth
  obtain ⟨before, hrun, hjoined⟩ := (Option.any_eq_true _ _).mp hruns
  have hbefore : World.empty.Ends {} "var x = \"u\";" before :=
    ⟨b, _, 9, World.compile_eq_some_iff.mpr ⟨hb, rfl⟩, hbsuccess, hrun⟩
  obtain ⟨c, hc, hcsuccess⟩ := (Option.any_eq_true _ _).mp hfirst
  obtain ⟨d, hd, hdsuccess⟩ := (Option.any_eq_true _ _).mp hsecond
  obtain ⟨e, he, hboth⟩ := (Option.any_eq_true _ _).mp hjoined
  obtain ⟨hsuccess, hrun⟩ := (Bool.and_eq_true _ _).mp hboth
  obtain ⟨o, ho, hlines⟩ := (Option.any_eq_true _ _).mp hrun
  have hends : before.world.Ends {}
      ("var a = \"v\" + x;" ++ "\n" ++ "print a + \"v\" + x;") o :=
    ⟨e, _, 99, World.compile_eq_some_iff.mpr ⟨he, rfl⟩, hsuccess, ho⟩
  have hbehaviour : o.behaviour = .ended #["vuvu"] o.world.globalsByName := by
    have hlines : o.result.toOption = some #["vuvu"] := eq_of_beq hlines
    rw [Outcome.behaviour]
    cases hresult : o.result with
    | ok lines =>
      rw [hresult] at hlines
      exact congrArg (Behaviour.ended · _) (Option.some.inj hlines)
    | error error =>
      rw [hresult] at hlines
      cases hlines
  obtain ⟨-, hworlds⟩ := World.behaves_join hc hcsuccess hd hdsuccess before.world.interner
  obtain ⟨behaviour, hunique⟩ :=
    hworlds ⟨e, he, hsuccess⟩ before.world (World.Reached.empty.of_ends hbefore).wellFormed
  have heq := (hunique _).1.mp (.halts hends)
  rw [hbehaviour] at heq
  exact ⟨before, c, d, _, hbefore, hc, hcsuccess, hd, hdsuccess, (hunique _).1.mpr heq,
    (hunique _).2.mpr heq⟩

end Lox
