import Lox.Proofs.Acceptance
import Lox.Proofs.Bytecode.Safety
import Lox.Proofs.Session.Machine
import Lox.Proofs.Translation.Balance

/-!
# Compiled code is verified

The chunk of a source that compiles without a report is verified: its code is the code of a program
that keeps to the requirements, which is balanced, and its operands fit into their bytes.

## Main definitions

* `Machine.Resolvable`: the symbols that a machine can come to resolve have been issued.

## Main results

* `verified_of_compile`: the chunk is verified, no run of it fails but for a reason that the program
  can be blamed for, and none resolves a symbol of another world.
-/

namespace Lox

/-- A constant of a chunk that denotes a text is a string. -/
theorem exists_string_of_denotes {interner : Interner} {values : List Value} {pool : Pool}
    (h : List.Forall₂ (Value.Denotes interner) values pool) {k : Nat} {text : String}
    (hget : pool[k]? = some (.text text)) : ∃ symbol, values[k]? = some (.string symbol) := by
  obtain ⟨hlt, hget⟩ := List.getElem?_eq_some_iff.mp hget
  have hlt' : k < values.length := h.length_eq ▸ hlt
  have hdenotes := h.get hlt' hlt
  rw [List.get_eq_getElem, List.get_eq_getElem, hget] at hdenotes
  rw [List.getElem?_eq_getElem hlt']
  generalize values[k] = v at hdenotes
  cases hdenotes with
  | text => exact ⟨_, rfl⟩

/-- The pool of a program that keeps to the requirements has no more places than operands name. -/
theorem Accepted.length_pool {limits : Limits} {program : List Decl} (h : Accepted limits program) :
    (Decl.programPool program).length ≤ 256 := by
  rw [Decl.programPool, Pool.length_addAll_nil]
  exact h.constants

/-- The code of a program that keeps to the requirements is balanced. -/
theorem Accepted.balanced {limits : Limits} {program : List Decl} (h : Accepted limits program) :
    Balanced (Decl.programPool program) 0 0 (Decl.codeAll [] program []) := by
  have hbalanced := Decl.balancedAll (Nat.min_le_right limits.locals LocalScope.maxSlots) program
    (List.prefix_refl (Decl.programPool program)) h.scopes (Nat.zero_le _)
  rw [Decl.scopesAfterAll_nil] at hbalanced
  exact hbalanced

/-- Every symbol whose text the next instruction can ask for has been issued: a machine prints and
joins values of its stack, and names globals by the constants. -/
def Machine.Resolvable (m : Machine) (c : Chunk) : Prop :=
  ∀ symbol, .string symbol ∈ m.stack ∨ .string symbol ∈ c.constants → m.world.interner.Issued symbol

/-- In a world in order that has the strings of a compilation, a run of the chunk resolves symbols
that have been issued only. -/
theorem resolvable_of_compile {limits : Limits} {interner : Interner} {source : String}
    {c : Compilation} (h : compile limits interner source = some c) {world : World}
    (hworld : world.WellFormed) (hgrows : c.interner.Grows world.interner) (bound : Nat) :
    ((Machine.start world).trace c.chunk bound).2.Resolvable c.chunk := by
  have hconstants : c.chunk.Belongs world.interner := Chunk.Belongs.mono hgrows (denotes_of_compile h)
  have hkeeps := (Machine.belongs_start hworld).trace hconstants bound
  have hlater : world.interner.Grows
      ((Machine.start world).trace c.chunk bound).2.world.interner :=
    hkeeps.interner ▸ Interner.grows_internAll _ _
  rintro symbol (hmem | hmem)
  · exact (hkeeps.belongs.stack _ hmem).exists_find?
  · exact (hconstants.mono hlater _ hmem).exists_find?

/-- **Compiled code is verified**, whatever the source and the limits. So in no world a run of it
fails but for a reason that the program can be blamed for, and in a world that has its strings it
never asks for the text of a symbol that has not been issued. -/
theorem verified_of_compile {limits : Limits} {interner : Interner} {source : String}
    {c : Compilation} (h : compile limits interner source = some c) (hsuccess : c.isSuccess = true) :
    c.chunk.Verified ∧
      (∀ (world : World) (limit : Nat) (o : Outcome) (e : RuntimeError),
        (Machine.start world).run c.chunk limit = some o → o.result = .error e →
          e.ofProgram = true) ∧
      ∀ world : World, world.WellFormed → c.interner.Grows world.interner → ∀ bound,
        ((Machine.start world).trace c.chunk bound).2.Resolvable c.chunk := by
  obtain ⟨program, hprogram⟩ := exists_program_of_compile h hsuccess
  obtain ⟨haccepted, hcode, hpool⟩ := matches_of_compile h hsuccess hprogram
  have hverified : c.chunk.Verified := by
    refine haccepted.balanced.verified haccepted.length_pool haccepted.jumps hcode ?_ ?_
    · rw [← hpool.length_eq, Array.length_toList]
    · intro k text htext
      obtain ⟨symbol, hsymbol⟩ := exists_string_of_denotes hpool htext
      exact ⟨symbol, by rwa [← Array.getElem?_toList]⟩
  exact ⟨hverified, fun _ _ _ _ hrun hfailed => hverified.ofProgram_of_run hrun hfailed,
    fun _ hworld hgrows => resolvable_of_compile h hworld hgrows⟩

/-- A source with a local, a branch and a loop, compiled and run in one world. -/
theorem verified_of_branch_and_loop : ∃ c, compile {} .empty
    "\x7bvar a = \"x\"; while (a) if (a == b) print a; else a = nil;\x7d" = some c ∧
      c.isSuccess = true ∧ c.chunk.Verified ∧ ∀ bound,
        ((Machine.start { World.empty with interner := c.interner }).trace c.chunk
          bound).2.Resolvable c.chunk := by
  have hcompile : (compile {} .empty
      "\x7bvar a = \"x\"; while (a) if (a == b) print a; else a = nil;\x7d").any
        (·.isSuccess) = true := by decide +kernel
  obtain ⟨c, hc, hsuccess⟩ := (Option.any_eq_true _ _).mp hcompile
  obtain ⟨hverified, -, hresolvable⟩ := verified_of_compile hc hsuccess
  exact ⟨c, hc, hsuccess, hverified,
    hresolvable _ (World.wellFormed_empty.grow (grows_of_compile hc)) (.refl _)⟩

end Lox
