import Lox.Proofs.Simulation.Statement
import Lox.Proofs.Verification
import Lox.Semantics.Behaviour

/-!
# Compiled code does what the program does

Running the chunk of a source and evaluating a program that the source spells come to the same: the
same lines are printed, or the same error is met, and the globals are the same afterwards. One goes
on forever if and only if the other does.

## Main definitions

* `Outcome.Matches`: a run has ended as an evaluation has.
* `World.Reached`: the worlds that come about by the operations on worlds.

## Main results

* `exec_run_of_compile`: compiling preserves what a program does.
* `World.Reached.wellFormed`: the worlds in which it does.
-/

namespace Lox

/-- The run has ended as the evaluation has: with the same lines or with the same error message, and
in any case with the same globals. -/
def Outcome.Matches (o : Outcome) : Evaluated Unit → Prop
  | .done _ s => o.result = .ok s.output ∧ o.world.globalsByName = s.globals
  | .failed fault s =>
    (∃ e, o.result = .error e ∧ e.message = fault.message) ∧ o.world.globalsByName = s.globals
  | .unfinished => False

namespace Machine

variable {c : Chunk} {i : Interner} {m : Machine} {offset least : Nat}

/-- At a halt the machine has nothing left to do. -/
theorem Agrees.step_of_halt {s : Store} (h : m.Agrees i [] offset [] s)
    (hread : c.instruction? offset = some ⟨.halt, 0⟩) : m.step c = .finished := by
  have hframes : s.frames = [] := List.map_eq_nil_iff.mp h.scopes
  have hstack := h.stack
  rw [Store.values, Store.locals, hframes] at hstack
  have hempty : m.stack = #[] := by
    have hnil : m.stack.toList.reverse = [] := List.forall₂_nil_right_iff.mp hstack
    exact Array.toList_eq_nil_iff.mp (List.reverse_eq_nil_iff.mp hnil)
  rw [Machine.step_of_halt (by rwa [h.offset]), hempty]
  rfl

/-- A machine that comes to a halt by what it simulates has a run that ends in the same way, and in a
world that is in order. If the evaluation is unfinished, a short run has not ended. -/
theorem Simulates.run {r : Evaluated Unit} (h : Simulates c least m (Arrives i [] offset) r)
    (hread : c.instruction? offset = some ⟨.halt, 0⟩) :
    (r = .unfinished ∧ m.run c least = none) ∨
      ∃ limit o, m.run c limit = some o ∧ o.Matches r ∧ o.world.WellFormed := by
  cases r with
  | done x s =>
    obtain ⟨n, m', hruns, hm'⟩ := h
    refine .inr ⟨n + 1, ⟨m'.world, .ok m'.output⟩, ?_, ?_, Agrees.world hm'⟩
    · rw [run_of_runs hruns, Machine.run, Agrees.step_of_halt hm' hread]
    · exact ⟨congrArg _ (Agrees.output hm'), Agrees.globals hm'⟩
  | failed fault s =>
    obtain ⟨n, m', e, hruns, hstep, hmessage, hworld, hglobals⟩ := h
    refine .inr ⟨n + 1, ⟨m'.world, .error e⟩, ?_, ⟨⟨e, rfl, hmessage⟩, hglobals⟩, hworld⟩
    rw [run_of_runs hruns, Machine.run, hstep]
  | unfinished =>
    obtain ⟨n, m', hleast, hruns⟩ := h
    exact .inl ⟨rfl, run_eq_none_of_runs hruns hleast⟩

end Machine

section Compilation

variable {limits : Limits} {source : String} {c : Compilation} {w : World} {program : List Decl}

/-- The chunk of a source holds the code of a program that the source spells. -/
theorem holds_of_compile {interner : Interner} (h : compile limits interner source = some c)
    (hsuccess : c.isSuccess = true) (hprogram : Decl.DerivesAll program (scan source).tokens) :
    c.chunk.Holds 0 (Decl.programCode program) := by
  obtain ⟨haccepted, hcode, -⟩ := matches_of_compile h hsuccess hprogram
  have hreads := haccepted.balanced.reads haccepted.length_pool haccepted.jumps hcode
  exact fun x hx => hreads.instruction?_of_mem hx

/-- A machine at the start agrees with the store at the start. -/
theorem agrees_start (hw : w.WellFormed) {i : Interner} (hi : i.Grows w.interner) :
    (Machine.start w).Agrees i [] 0 [] (.start w.globalsByName) where
  offset := rfl
  interner := hi
  world := hw
  globals := rfl
  output := rfl
  scopes := rfl
  stack := .nil

/-- In any world in order that has the strings of the chunk, the machine simulates the program. -/
theorem run_of_compile {interner : Interner} (h : compile limits interner source = some c)
    (hsuccess : c.isSuccess = true) (hprogram : Decl.DerivesAll program (scan source).tokens)
    (hw : w.WellFormed) (hgrows : c.interner.Grows w.interner) (bound : Nat) :
    (Decl.execAll bound program (.start w.globalsByName) = .unfinished ∧
        (Machine.start w).run c.chunk bound = none) ∨
      ∃ limit o, (Machine.start w).run c.chunk limit = some o ∧
        o.Matches (Decl.execAll bound program (.start w.globalsByName)) ∧ o.world.WellFormed := by
  obtain ⟨-, -, hpool⟩ := matches_of_compile h hsuccess hprogram
  obtain ⟨hcode, hhalt⟩ := Chunk.holds_append.mp (holds_of_compile h hsuccess hprogram)
  have hsimulates := Decl.simulatesAll bound hpool program (List.prefix_refl _) hcode
    (agrees_start hw hgrows)
  rw [Decl.scopesAfterAll_nil] at hsimulates
  exact hsimulates.run (Chunk.holds_singleton.mp hhalt)

/-- A run of compiled code leaves a world in order. -/
theorem wellFormed_of_run {interner : Interner} (h : compile limits interner source = some c)
    (hsuccess : c.isSuccess = true) (hw : w.WellFormed) (hgrows : c.interner.Grows w.interner)
    {limit : Nat} {o : Outcome} (hrun : (Machine.start w).run c.chunk limit = some o) :
    o.world.WellFormed := by
  obtain ⟨program, hprogram⟩ := exists_program_of_compile h hsuccess
  rcases run_of_compile h hsuccess hprogram hw hgrows limit with
    ⟨-, hnone⟩ | ⟨limit', o', hrun', -, hworld⟩
  · exact absurd (hnone.symm.trans hrun) nofun
  · exact Machine.run_unique hrun' hrun ▸ hworld

theorem World.compile_eq_some_iff {w' : World} : w.compile limits source = some (c, w') ↔
    Lox.compile limits w.interner source = some c ∧ w' = { w with interner := c.interner } := by
  rw [World.compile]
  cases Lox.compile limits w.interner source with
  | none => simp
  | some d =>
    simp only [Option.map_some, Option.some.injEq, Prod.mk.injEq]
    constructor
    · rintro ⟨rfl, rfl⟩
      exact ⟨rfl, rfl⟩
    · rintro ⟨rfl, rfl⟩
      exact ⟨rfl, rfl⟩

/-- The worlds that come about from one in which nothing has happened: by interning texts, by giving
values to globals and taking them away, by importing globals, by compiling, and by running what has
been compiled. What is put into a world belongs to its interner. -/
inductive World.Reached : World → Prop where
  | empty : Reached .empty
  | intern {w : World} (text : String) (h : Reached w) : Reached (w.intern text).2
  | insert {w : World} {symbol : Symbol} {v : Value} {x : Datum} (h : Reached w)
      (hsymbol : w.interner.Issued symbol) (hv : v.Denotes w.interner x) :
      Reached { w with globals := (w.globals.insert symbol v).2 }
  | erase {w : World} (symbol : Symbol) (h : Reached w) :
      Reached { w with globals := (w.globals.erase symbol).2 }
  | importGlobals {w : World} {t : SymbolTable Value} (h : Reached w) (ht : t.Names w.interner) :
      Reached (w.importGlobals t)
  | compile {w : World} {limits : Limits} {source : String} {c : Compilation} (h : Reached w)
      (hc : Lox.compile limits w.interner source = some c) :
      Reached { w with interner := c.interner }
  | run {w : World} {limits : Limits} {interner : Interner} {source : String} {c : Compilation}
      {limit : Nat} {o : Outcome} (h : Reached w)
      (hc : Lox.compile limits interner source = some c) (hsuccess : c.isSuccess = true)
      (hgrows : c.interner.Grows w.interner)
      (hrun : (Machine.start w).run c.chunk limit = some o) : Reached o.world

/-- Worlds that come about in these ways are in order. -/
theorem World.Reached.wellFormed {w : World} (h : w.Reached) : w.WellFormed := by
  induction h with
  | empty => exact wellFormed_empty
  | intern text _ ih => exact ih.intern text
  | insert _ hsymbol hv ih => exact SymbolTable.Names.insert ih hsymbol hv
  | erase symbol _ ih => exact ih.erase symbol
  | importGlobals _ ht ih => exact ih.importGlobals ht
  | compile _ hc ih => exact ih.grow (grows_of_compile hc)
  | run _ hc hsuccess hgrows hrun ih => exact wellFormed_of_run hc hsuccess ih hgrows hrun

/-- A program that comes to its end leads from a world that comes about to another. -/
theorem World.Reached.of_ends {o : Outcome} (h : w.Reached) (hends : w.Ends limits source o) :
    o.world.Reached := by
  obtain ⟨c, w', limit, hcompile, hsuccess, hrun⟩ := hends
  obtain ⟨hc, rfl⟩ := World.compile_eq_some_iff.mp hcompile
  exact .run (.compile h hc) hc hsuccess (.refl _) hrun

/-- **Compiling preserves what a program does.** A source that compiles without a report, in a world
in order, spells a program, and for any program it spells: if an evaluation of it ends, so does a
run of the chunk, and in the same way; if a run ends, so does the evaluation; and one never ends
exactly if the other does not. -/
theorem exec_run_of_compile (hw : w.WellFormed) (h : compile limits w.interner source = some c)
    (hsuccess : c.isSuccess = true) :
    (∃ program, Decl.DerivesAll program (scan source).tokens) ∧
      ∀ program, Decl.DerivesAll program (scan source).tokens →
        let run := (Machine.start { w with interner := c.interner }).run c.chunk
        let exec := fun bound => Decl.execAll bound program (.start w.globalsByName)
        (∀ bound, exec bound ≠ .unfinished →
          ∃ limit o, run limit = some o ∧ o.Matches (exec bound)) ∧
        (∀ limit o, run limit = some o → ∃ bound, o.Matches (exec bound)) ∧
        ((∀ limit, run limit = none) ↔ ∀ bound, exec bound = .unfinished) := by
  refine ⟨exists_program_of_compile h hsuccess, fun program hprogram => ?_⟩
  intro run exec
  have hgrows := grows_of_compile h
  have hrun : ∀ bound, (exec bound = .unfinished ∧ run bound = none) ∨
      ∃ limit o, run limit = some o ∧ o.Matches (exec bound) ∧ o.world.WellFormed := by
    intro bound
    have hboth := run_of_compile h hsuccess hprogram (hw.grow hgrows) (.refl _) bound
    rwa [hw.globalsByName_grow hgrows] at hboth
  have hforward : ∀ bound, exec bound ≠ .unfinished →
      ∃ limit o, run limit = some o ∧ o.Matches (exec bound) := by
    intro bound hfinished
    rcases hrun bound with ⟨hunfinished, -⟩ | ⟨limit, o, hlimit, hmatches, -⟩
    · exact absurd hunfinished hfinished
    · exact ⟨limit, o, hlimit, hmatches⟩
  -- A run that ends within a limit takes fewer steps than the limit, so the evaluation with that
  -- bound is not unfinished.
  have hbackward : ∀ limit o, run limit = some o → ∃ bound, o.Matches (exec bound) := by
    intro limit o hlimit
    rcases hrun limit with ⟨-, hnone⟩ | ⟨limit', o', hlimit', hmatches, -⟩
    · exact absurd (hnone.symm.trans hlimit) nofun
    · exact ⟨limit, Machine.run_unique hlimit' hlimit ▸ hmatches⟩
  refine ⟨hforward, hbackward, fun hnever bound => ?_, fun hnever limit => ?_⟩
  · by_contra hfinished
    obtain ⟨limit, o, hlimit, -⟩ := hforward bound hfinished
    exact absurd ((hnever limit).symm.trans hlimit) nofun
  · cases hlimit : run limit with
    | none => rfl
    | some o =>
      obtain ⟨bound, hmatches⟩ := hbackward limit o hlimit
      rw [hnever bound] at hmatches
      exact hmatches.elim

/-- A source with a global of the program before it, a local and a loop that is gone around once. -/
theorem exec_run_of_join : ∃ o, World.empty.Ends {} "var a = \"x\";" o ∧ ∃ program bound s,
    Decl.DerivesAll program (scan
      "while (a) \x7bvar b = a + \"y\"; print b; a = nil;\x7d").tokens ∧
    Decl.execAll bound program (.start o.world.globalsByName) = .done () s ∧
    s.output = #["xy"] := by
  have hruns : ((compile {} World.empty.interner "var a = \"x\";").any fun c =>
      c.isSuccess && ((Machine.start { World.empty with interner := c.interner }).run c.chunk 9).any
        fun o => (compile {} o.world.interner
          "while (a) \x7bvar b = a + \"y\"; print b; a = nil;\x7d").any fun c => c.isSuccess &&
            ((Machine.start { o.world with interner := c.interner }).run c.chunk 99).any
              (·.result.toOption == some #["xy"])) = true := by decide +kernel
  obtain ⟨c, hc, hboth⟩ := (Option.any_eq_true _ _).mp hruns
  obtain ⟨hsuccess, hruns⟩ := (Bool.and_eq_true _ _).mp hboth
  obtain ⟨before, hbefore, hruns⟩ := (Option.any_eq_true _ _).mp hruns
  have hends : World.empty.Ends {} "var a = \"x\";" before :=
    ⟨c, _, 9, World.compile_eq_some_iff.mpr ⟨hc, rfl⟩, hsuccess, hbefore⟩
  obtain ⟨c, hc, hboth⟩ := (Option.any_eq_true _ _).mp hruns
  obtain ⟨hsuccess, hrun⟩ := (Bool.and_eq_true _ _).mp hboth
  obtain ⟨o, ho, hlines⟩ := (Option.any_eq_true _ _).mp hrun
  obtain ⟨⟨program, hprogram⟩, hpreserved⟩ :=
    exec_run_of_compile (World.Reached.empty.of_ends hends).wellFormed hc hsuccess
  obtain ⟨-, hended, -⟩ := hpreserved program hprogram
  obtain ⟨bound, hmatches⟩ : ∃ bound, o.Matches
      (Decl.execAll bound program (.start before.world.globalsByName)) := hended 99 o ho
  have hlines : o.result.toOption = some #["xy"] := eq_of_beq hlines
  refine ⟨before, hends, program, bound, ?_⟩
  cases hexec : Decl.execAll bound program (.start before.world.globalsByName) with
  | done x s =>
    rw [hexec] at hmatches
    rw [hmatches.1] at hlines
    exact ⟨s, hprogram, rfl, Option.some.inj hlines⟩
  | failed fault s =>
    rw [hexec] at hmatches
    obtain ⟨⟨e, he, -⟩, -⟩ := hmatches
    rw [he] at hlines
    exact absurd hlines nofun
  | unfinished =>
    rw [hexec] at hmatches
    exact hmatches.elim

end Compilation

end Lox
