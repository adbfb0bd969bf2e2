import Lox.Proofs.Bytecode.Reading
import Lox.Proofs.Simulation.Variables
import Lox.Proofs.Worlds

/-!
# Machines and evaluations

What it means that a machine does what an evaluation does: if the evaluation is done, the machine
arrives at a state that agrees with the store; if it fails, the machine fails, and with the same
message; if it is unfinished, the machine runs for long.

A machine agrees with a store if the locals of the store are the lowest values on the stack, with
some more values above them, and the globals and the printed lines are the same.

## Main definitions

* `Machine.Runs`: a number of steps.
* `Machine.Agrees`: a machine agrees with a store.
* `Machine.Simulates`: a machine does what an evaluation does.

## Main results

* `Agrees.push`, `Agrees.pop`, `Agrees.peek`: the stack of a machine that agrees with a store.
* `Simulates.bind`, `Simulates.of_step`: simulations compose.
* `Simulates.repeatWhile`: repeating a round simulates a loop.
-/

namespace Lox

namespace Machine

variable {c : Chunk} {m m' m'' : Machine}

/-! ### Runs -/

/-- A number of steps lead from a machine to another. -/
def Runs (c : Chunk) : Nat → Machine → Machine → Prop
  | 0, m, m' => m = m'
  | n + 1, m, m' => ∃ next, m.step c = .running next ∧ Runs c n next m'

theorem Runs.trans {n k : Nat} (h : Runs c n m m') (h' : Runs c k m' m'') :
    Runs c (n + k) m m'' := by
  induction n generalizing m with
  | zero =>
    obtain rfl : m = m' := h
    rwa [Nat.zero_add]
  | succ n ih =>
    obtain ⟨next, hstep, hrest⟩ := h
    rw [Nat.succ_add]
    exact ⟨next, hstep, ih hrest⟩

theorem Runs.single (h : m.step c = .running m') : Runs c 1 m m' := ⟨m', h, rfl⟩

theorem run_of_runs {n : Nat} (h : Runs c n m m') (limit : Nat) :
    m.run c (n + limit) = m'.run c limit := by
  induction n generalizing m with
  | zero =>
    obtain rfl : m = m' := h
    rw [Nat.zero_add]
  | succ n ih =>
    obtain ⟨next, hstep, hrest⟩ := h
    rw [Nat.succ_add, run, hstep]
    exact ih hrest

/-- A run that takes many steps has not ended before. -/
theorem run_eq_none_of_runs {n limit : Nat} (h : Runs c n m m') (hle : limit ≤ n) :
    m.run c limit = none := by
  induction n generalizing m limit with
  | zero =>
    obtain rfl := Nat.le_zero.mp hle
    rfl
  | succ n ih =>
    obtain ⟨next, hstep, hrest⟩ := h
    cases limit with
    | zero => rfl
    | succ limit =>
      rw [run, hstep]
      exact ih hrest (Nat.le_of_succ_le_succ hle)

/-- How a run ends does not depend on the limit. -/
theorem run_of_le {limit limit' : Nat} {o : Outcome} (h : m.run c limit = some o)
    (hle : limit ≤ limit') : m.run c limit' = some o := by
  induction limit generalizing m limit' with
  | zero => exact absurd h nofun
  | succ limit ih =>
    obtain ⟨k, rfl⟩ := Nat.exists_eq_add_of_le hle
    rw [Nat.succ_add, run]
    rw [run] at h
    cases hstep : m.step c with
    | running next =>
      rw [hstep] at h
      exact ih h (Nat.le_add_right _ _)
    | finished =>
      rw [hstep] at h
      exact h
    | failed e =>
      rw [hstep] at h
      exact h

theorem run_unique {limit limit' : Nat} {o o' : Outcome} (h : m.run c limit = some o)
    (h' : m.run c limit' = some o') : o = o' := by
  have hmax := run_of_le h (Nat.le_max_left limit limit')
  rw [run_of_le h' (Nat.le_max_right limit limit')] at hmax
  exact (Option.some.inj hmax).symm

/-! ### Agreement -/

/-- The machine is at an offset in code of given scopes and agrees with the store, with some values
above the locals. Its interner has grown out of a given one. -/
structure Agrees (i : Interner) (scopes : Scopes) (offset : Nat) (above : List Datum) (s : Store)
    (m : Machine) : Prop where
  offset : m.offset = offset
  interner : i.Grows m.world.interner
  world : m.world.WellFormed
  globals : m.world.globalsByName = s.globals
  output : m.output = s.output
  scopes : s.scopes = scopes
  /-- The stack, from the top down. -/
  stack : List.Forall₂ (Value.Denotes m.world.interner) m.stack.toList.reverse (above ++ s.values)

section Agreement

variable {i : Interner} {scopes : Scopes} {offset : Nat} {above : List Datum} {s : Store} {v : Value}
  {x : Datum}

theorem Agrees.moved (h : m.Agrees i scopes offset above s) (next : Nat) :
    Agrees i scopes next above s { m with offset := next } := { h with offset := rfl }

theorem Agrees.push (h : m.Agrees i scopes offset above s) (hv : v.Denotes m.world.interner x) :
    (m.push v).Agrees i scopes offset (x :: above) s where
  offset := h.offset
  interner := h.interner
  world := h.world
  globals := h.globals
  output := h.output
  scopes := h.scopes
  stack := by
    rw [Machine.push, Array.toList_push, List.reverse_append]
    exact .cons hv h.stack

/-- The value on top of the stack denotes the datum expected there. -/
theorem Agrees.back? (h : m.Agrees i scopes offset (x :: above) s) :
    ∃ v, m.stack.back? = some v ∧ v.Denotes m.world.interner x ∧
      List.Forall₂ (Value.Denotes m.world.interner) m.stack.pop.toList.reverse
        (above ++ s.values) := by
  have hstack := h.stack
  rw [List.cons_append] at hstack
  obtain ⟨v, rest, hv, hrest, heq⟩ := List.forall₂_cons_right_iff.mp hstack
  have hlist : m.stack.toList = rest.reverse ++ [v] := by
    rw [← List.reverse_cons, ← heq, List.reverse_reverse]
  refine ⟨v, ?_, hv, ?_⟩
  · rw [← Array.getLast?_toList, hlist, List.getLast?_concat]
  · rwa [Array.toList_pop, hlist, List.dropLast_concat, List.reverse_reverse]

theorem Agrees.pop (h : m.Agrees i scopes offset (x :: above) s) :
    ∃ v, m.pop = .ok (v, { m with stack := m.stack.pop }) ∧ v.Denotes m.world.interner x ∧
      Agrees i scopes offset above s { m with stack := m.stack.pop } := by
  obtain ⟨v, hback, hv, hrest⟩ := h.back?
  exact ⟨v, by rw [Machine.pop, hback], hv, { h with stack := hrest }⟩

theorem Agrees.peek (h : m.Agrees i scopes offset (x :: above) s) :
    ∃ v, m.peek = .ok v ∧ v.Denotes m.world.interner x := by
  obtain ⟨v, hback, hv, -⟩ := h.back?
  exact ⟨v, by rw [Machine.peek, hback], hv⟩

/-- The stack from the bottom up: the locals in their slots, and then what is above them. -/
theorem Agrees.slots (h : m.Agrees i scopes offset above s) :
    List.Forall₂ (Value.Denotes m.world.interner) m.stack.toList
      (s.values.reverse ++ above.reverse) := by
  rw [← List.reverse_append, ← List.forall₂_reverse_iff, List.reverse_reverse]
  exact h.stack

end Agreement

/-! ### Simulation -/

section Simulation

variable {α β : Type} {least least' : Nat} {P P' : α → Store → Machine → Prop}
  {Q : β → Store → Machine → Prop}

/-- The machine does what an evaluation has come to. If the evaluation is unfinished, the machine
takes some least number of steps. -/
def Simulates (c : Chunk) (least : Nat) (m : Machine) (P : α → Store → Machine → Prop) :
    Evaluated α → Prop
  | .done x s => ∃ n m', Runs c n m m' ∧ P x s m'
  | .failed fault s => ∃ n m' e, Runs c n m m' ∧ m'.step c = .failed e ∧
      e.message = fault.message ∧ m'.world.WellFormed ∧ m'.world.globalsByName = s.globals
  | .unfinished => ∃ n m', least ≤ n ∧ Runs c n m m'

theorem Simulates.done {x : α} {s : Store} (h : P x s m) : Simulates c least m P (.done x s) :=
  ⟨0, m, rfl, h⟩

theorem Simulates.mono {r : Evaluated α} (h : Simulates c least m P r) (hle : least' ≤ least) :
    Simulates c least' m P r := by
  cases r with
  | done x s => exact h
  | failed fault s => exact h
  | unfinished =>
    obtain ⟨n, m', hn, hruns⟩ := h
    exact ⟨n, m', Nat.le_trans hle hn, hruns⟩

/-- Steps after a simulation belong to it. -/
theorem Simulates.after {r : Evaluated α} (h : Simulates c least m P r)
    (hP : ∀ x s m', P x s m' → ∃ n next, Runs c n m' next ∧ P' x s next) :
    Simulates c least m P' r := by
  cases r with
  | done x s =>
    obtain ⟨n, m', hruns, hx⟩ := h
    obtain ⟨k, next, hmore, hnext⟩ := hP x s m' hx
    exact ⟨n + k, next, hruns.trans hmore, hnext⟩
  | failed fault s => exact h
  | unfinished => exact h

theorem Simulates.of_runs {n : Nat} {r : Evaluated α} (hruns : Runs c n m m')
    (h : Simulates c least m' P r) : Simulates c (n + least) m P r := by
  cases r with
  | done x s =>
    obtain ⟨k, m'', hk, hx⟩ := h
    exact ⟨n + k, m'', hruns.trans hk, hx⟩
  | failed fault s =>
    obtain ⟨k, m'', e, hk, hrest⟩ := h
    exact ⟨n + k, m'', e, hruns.trans hk, hrest⟩
  | unfinished =>
    obtain ⟨k, m'', hleast, hk⟩ := h
    exact ⟨n + k, m'', Nat.add_le_add_left hleast n, hruns.trans hk⟩

/-- A step before a simulation makes it longer by one. -/
theorem Simulates.of_step_succ {r : Evaluated α} (hstep : m.step c = .running m')
    (h : Simulates c least m' P r) : Simulates c (least + 1) m P r :=
  (h.of_runs (.single hstep)).mono (Nat.le_of_eq (Nat.add_comm _ _))

theorem Simulates.of_step {r : Evaluated α} (hstep : m.step c = .running m')
    (h : Simulates c least m' P r) : Simulates c least m P r :=
  (h.of_step_succ hstep).mono (Nat.le_succ _)

/-- An instruction that fails as the evaluation does. -/
theorem Simulates.failed {fault : Fault} {s : Store} {e : RuntimeError}
    (hstep : m.step c = .failed e) (hmessage : e.message = fault.message)
    (hworld : m.world.WellFormed) (hglobals : m.world.globalsByName = s.globals) :
    Simulates c least m P (.failed fault s) :=
  ⟨0, m, e, rfl, hstep, hmessage, hworld, hglobals⟩

/-- **Simulations compose.** -/
theorem Simulates.bind {f : Evaluation α} {g : α → Evaluation β} {s : Store}
    (h : Simulates c least m P (f s))
    (hg : ∀ x s' m', P x s' m' → Simulates c least m' Q (g x s')) :
    Simulates c least m Q ((f >>= g) s) := by
  cases hr : f s with
  | done x s' =>
    rw [hr] at h
    obtain ⟨n, m', hruns, hx⟩ := h
    rw [Evaluation.bind_of_done hr]
    exact ((hg x s' m' hx).of_runs hruns).mono (Nat.le_add_left _ _)
  | failed fault s' =>
    rw [hr] at h
    rw [Evaluation.bind_of_failed hr]
    exact h
  | unfinished =>
    rw [hr] at h
    rw [Evaluation.bind_of_unfinished hr]
    exact h

/-- **Loops.** The machine comes to the loop in states `I`, from a condition that holds it comes to
the round in states `B`, and at the end of a round one more step leads back. That step is why the
machine runs for long if the evaluation goes around the loop often. -/
theorem Simulates.repeatWhile {condition : Evaluation Datum} {round : Evaluation Unit}
    {I B E : Store → Machine → Prop} {bound : Nat}
    (hcondition : ∀ s m, I s m → Simulates c bound m
      (fun x s' m' => if x.isFalsey then E s' m' else B s' m') (condition s))
    (hround : ∀ s m, B s m → Simulates c bound m
      (fun _ s' m' => ∃ next, m'.step c = .running next ∧ I s' next) (round s))
    {n : Nat} (hn : n ≤ bound) {s : Store} (h : I s m) :
    Simulates c n m (fun _ => E) (Evaluation.repeatWhile condition round n s) := by
  induction n generalizing s m with
  | zero => exact ⟨0, m, Nat.le_refl 0, rfl⟩
  | succ n ih =>
    refine ((hcondition s m h).mono hn).bind fun x s' m' hx => ?_
    by_cases hfalsey : x.isFalsey = true
    · rw [if_pos hfalsey] at hx ⊢
      exact .done hx
    · rw [if_neg hfalsey] at hx ⊢
      refine ((hround s' m' hx).mono hn).bind ?_
      rintro - s'' m'' ⟨next, hstep, hnext⟩
      exact (ih (Nat.le_of_succ_le hn) hnext).of_step_succ hstep

end Simulation

end Machine

end Lox
