import Lox.Bytecode.Instruction
import Lox.Proofs.Draft.Maintenance
import Lox.Proofs.Draft.Position

/-!
# Compiling as a run of operations

Compiling is a run of operations on the draft, and what it passes through are the drafts that can be
reached by operations from the start. An operation is finished before the next one begins: looking a
text up in the constant pool is one operation, which changes the interner, the pool and the table of
strings together. In this `Operation` differs from `Step`. It also differs in what may be written and
looked up. The texts are those of tokens. An instruction that names a constant is written for a number,
or for a text that has been looked up, with the index that was answered. So a run keeps a record of
the texts and of the instructions that name them.

An invariant that each operation keeps holds at every moment of every compilation.

## Main definitions

* `Mark`: what goes on record.
* `Draft.Operation`: one operation, `Draft.Runs` a run of operations with its record.
* `Draft.Owes`: what has been looked up and not yet been named, `Draft.Completes` a run after which
  that is nothing.

## Main results

* `Draft.maintained_runs`: compiling is a run of operations.
* `Draft.exists_completes_ofSource`: so is compiling a whole source, and every text is named in the
  end.
* `Draft.exists_completes_text`, `Draft.exists_completes_name`: where texts are looked up.
* `Draft.Runs.steps`, `Draft.Runs.along`: a run consists of steps and goes along the source.
-/

namespace Lox

/-- What goes on record. -/
inductive Mark where
  /-- A text has been looked up. -/
  | use (u : Use)
  /-- At an offset an instruction has been written whose operand is a text. -/
  | named (u : Use) (op : OpCode) (offset : Nat)
  /-- At an offset an instruction has been written that pushes a number. -/
  | number (offset : Nat) (operand : UInt8)
  /-- A jump has been written with a placeholder. -/
  | jump (placeholder : Nat)

/-- The instruction that names a constant, with its offset. -/
def Mark.instruction? : Mark → Option (Nat × Instruction)
  | named u op offset => some (offset, ⟨op, u.operand.toNat⟩)
  | number offset operand => some (offset, ⟨.constant, operand.toNat⟩)
  | use _ | jump _ => none

namespace Draft

/-- One operation of compiling, after some others, with what goes on record. -/
inductive Operation (past : List Mark) : Draft → List Mark → Draft → Prop where
  | report (d : Draft) (token : Token) (problem : Problem) :
      Operation past d [] (d.report token problem)
  | advance (d : Draft) : Operation past d [] d.advance
  | calm (d : Draft) : Operation past d [] { d with panicking := false }
  | stall (d : Draft) : Operation past d [] { d with stalled := true }
  | scope (d : Draft) (scope : LocalScope) : Operation past d [] { d with scope }
  | plain (d : Draft) {op : OpCode} (hop : op.operand = .none) : Operation past d [] (d.emitOp op)
  | slot (d : Draft) {op : OpCode} (slot : UInt8) (hop : op.operand = .slot) :
      Operation past d [] (d.emitOpByte op slot)
  | loop (d : Draft) (target : Nat) : Operation past d [] (d.emitLoop target)
  | jump (d : Draft) {op : OpCode} (hop : op.operand = .forward) :
      Operation past d [.jump (d.emitJump op).1] (d.emitJump op).2
  | patch (d : Draft) {placeholder distance : Nat} (hjump : .jump placeholder ∈ past)
      (hfits : distance ≤ maxDistance) :
      Operation past d [] { d with chunk := d.chunk.patch placeholder distance }
  | number (d : Draft) (value : Float) :
      Operation past d [.number d.size ((d.addConstant (.number value)).1.getD 0)]
        (d.emitConstant (.number value))
  | use (u : Use) (harises : u.Arises) : Operation past u.draft [.use u] u.after
  | name (d : Draft) {u : Use} {op : OpCode} (huse : .use u ∈ past) (hop : op ∈ u.role.opCodes) :
      Operation past d [.named u op d.size] (d.emitOpByte op u.operand)

/-- A run of operations leads from one draft to the other, and from one record to the other. -/
inductive Runs (past : List Mark) (e : Draft) : List Mark → Draft → Prop where
  | refl : Runs past e past e
  | tail {marks new : List Mark} {d d' : Draft} (before : Runs past e marks d)
      (operation : Operation marks d new d') : Runs past e (marks ++ new) d'

variable {e d d' : Draft} {past past' marks new first : List Mark} {ps : List Pending}
  {begun begun' : Bool} {u : Use}

/-- What may be done after some operations may be done after more. -/
theorem Operation.mono (h : Operation past d new d') (hsub : past ⊆ past') :
    Operation past' d new d' := by
  cases h with
  | patch _ hjump hfits => exact .patch d (hsub hjump) hfits
  | name _ huse hop => exact .name d (hsub huse) hop
  | plain _ hop => exact .plain d hop
  | slot _ slot hop => exact .slot d slot hop
  | jump _ hop => exact .jump d hop
  | use u harises => exact .use u harises
  | report | advance | calm | stall | scope | loop | number => constructor

/-- A run from the beginning of a record may follow another run. -/
theorem Runs.append (h : Runs past e marks d) (h' : Runs [] d new d') :
    Runs past e (marks ++ new) d' := by
  induction h' with
  | refl => rwa [List.append_nil]
  | tail _ hoperation ih =>
    rw [← List.append_assoc]
    exact ih.tail (hoperation.mono (List.subset_append_right _ _))

/-- An operation that leaves nothing on record. -/
theorem Runs.quiet (h : Runs past e marks d) (hoperation : Operation marks d [] d') :
    Runs past e marks d' := by
  have hruns := h.tail hoperation
  rwa [List.append_nil] at hruns

/-- After a run with this record, the pending jumps have been written and the pending texts have been
looked up; any other text that has been looked up has been named. -/
structure Owes (marks : List Mark) (ps : List Pending) : Prop where
  jumps : ∀ placeholder, .jump placeholder ∈ ps → .jump placeholder ∈ marks
  texts : ∀ u, .text u ∈ ps → .use u ∈ marks
  named : ∀ u, .use u ∈ marks → .text u ∈ ps ∨ ∃ op offset, .named u op offset ∈ marks

/-- More goes on record, but no text. -/
theorem Owes.append (h : Owes past ps) (hnew : ∀ u, .use u ∉ new) : Owes (past ++ new) ps where
  jumps placeholder hmem := List.mem_append_left _ (h.jumps placeholder hmem)
  texts u hmem := List.mem_append_left _ (h.texts u hmem)
  named u hmem := by
    obtain hmem | hmem := List.mem_append.mp hmem
    · exact (h.named u hmem).imp_right fun ⟨op, offset, hnamed⟩ =>
        ⟨op, offset, List.mem_append_left _ hnamed⟩
    · exact absurd hmem (hnew u)

theorem Owes.jump (h : Owes past ps) (placeholder : Nat) :
    Owes (past ++ [.jump placeholder]) (.jump placeholder :: ps) where
  jumps other hmem := by
    obtain heq | hmem := List.mem_cons.mp hmem
    · rw [Pending.jump.inj heq]
      exact List.mem_append_right _ (List.mem_singleton_self _)
    · exact List.mem_append_left _ (h.jumps other hmem)
  texts u hmem := (h.append (by simp)).texts u (by simpa using hmem)
  named u hmem := ((h.append (by simp)).named u hmem).imp_left (List.mem_cons_of_mem _)

theorem Owes.forget {placeholder : Nat} (h : Owes past (.jump placeholder :: ps)) : Owes past ps where
  jumps other hmem := h.jumps other (List.mem_cons_of_mem _ hmem)
  texts u hmem := h.texts u (List.mem_cons_of_mem _ hmem)
  named u hmem := by simpa using h.named u hmem

/-- A text is owed once it has been looked up. -/
theorem Owes.use (h : Owes past ps) (u : Use) : Owes (past ++ [.use u]) (.text u :: ps) where
  jumps placeholder hmem :=
    List.mem_append_left _ (h.jumps placeholder (by simpa using hmem))
  texts other hmem := by
    obtain heq | hmem := List.mem_cons.mp hmem
    · rw [Pending.text.inj heq]
      exact List.mem_append_right _ (List.mem_singleton_self _)
    · exact List.mem_append_left _ (h.texts other hmem)
  named other hmem := by
    obtain hmem | hmem := List.mem_append.mp hmem
    · exact (h.named other hmem).imp (List.mem_cons_of_mem _) fun ⟨op, offset, hnamed⟩ =>
        ⟨op, offset, List.mem_append_left _ hnamed⟩
    · rw [Mark.use.inj (List.mem_singleton.mp hmem)]
      exact .inl List.mem_cons_self

/-- A text is owed no more once it has been named. -/
theorem Owes.name (h : Owes past (.text u :: ps)) (op : OpCode) (offset : Nat) :
    Owes (past ++ [.named u op offset]) ps where
  jumps placeholder hmem :=
    List.mem_append_left _ (h.jumps placeholder (List.mem_cons_of_mem _ hmem))
  texts other hmem := List.mem_append_left _ (h.texts other (List.mem_cons_of_mem _ hmem))
  named other hmem := by
    obtain hmem | ⟨op', offset', hnamed⟩ := (h.append (by simp)).named other hmem
    · obtain heq | hmem := List.mem_cons.mp hmem
      · rw [Pending.text.inj heq]
        exact .inr ⟨op, offset, List.mem_append_right _ (List.mem_singleton_self _)⟩
      · exact .inl hmem
    · exact .inr ⟨op', offset', hnamed⟩

/-- A run of operations as an invariant. Its record begins in a given way. -/
def RunsOwing (e : Draft) (first : List Mark) (_ : Bool) (ps : List Pending) (d : Draft) : Prop :=
  ∃ marks, Runs [] e (first ++ marks) d ∧ Owes (first ++ marks) ps

theorem RunsOwing.quiet (h : e.RunsOwing first begun ps d)
    (hoperation : ∀ past, Operation past d [] d') : e.RunsOwing first begun' ps d' := by
  obtain ⟨marks, hruns, howes⟩ := h
  exact ⟨marks, hruns.quiet (hoperation _), howes⟩

/-- An operation with something that goes on record. -/
theorem RunsOwing.next {qs : List Pending} (h : e.RunsOwing first begun ps d)
    (hoperation : ∀ past, Operation past d new d')
    (howes : ∀ past, Owes past ps → Owes (past ++ new) qs) : e.RunsOwing first begun' qs d' := by
  obtain ⟨marks, hruns, hbefore⟩ := h
  refine ⟨marks ++ new, ?_⟩
  rw [← List.append_assoc]
  exact ⟨hruns.tail (hoperation _), howes _ hbefore⟩

/-- A run with this record, after which all texts that have been looked up have been named. -/
def Completes (d : Draft) (marks : List Mark) (d' : Draft) : Prop :=
  Runs [] d marks d' ∧ Owes marks []

theorem Completes.append (h : e.Completes marks d) (h' : d.Completes new d') :
    e.Completes (marks ++ new) d' := by
  refine ⟨h.1.append h'.1, fun _ hmem => absurd hmem List.not_mem_nil,
    fun _ hmem => absurd hmem List.not_mem_nil, fun u hmem => .inr ?_⟩
  obtain hmem | hmem := List.mem_append.mp hmem
  · obtain ⟨op, offset, hnamed⟩ := (h.2.named u hmem).resolve_left List.not_mem_nil
    exact ⟨op, offset, List.mem_append_left _ hnamed⟩
  · obtain ⟨op, offset, hnamed⟩ := (h'.2.named u hmem).resolve_left List.not_mem_nil
    exact ⟨op, offset, List.mem_append_right _ hnamed⟩

variable (d)

variable {d}

theorem Operation.steps (h : Operation past d new d') : Steps true d d' := by
  cases h with
  | report _ token problem => exact (Step.report d token problem).steps
  | advance => exact steps_advance d
  | calm => exact (Step.calm d).steps
  | stall => exact (Step.stall d rfl).steps
  | scope _ scope => exact (Step.scope d scope).steps
  | plain => exact steps_emitOp d _
  | slot => exact steps_emitOpByte d _ _
  | loop _ target => exact steps_emitLoop d target
  | jump => exact steps_emitJump d _
  | patch => exact (Step.patch d _ _).steps
  | number _ value => exact steps_emitConstant d _
  | use u => exact steps_stringConstant _ _
  | name => exact steps_emitOpByte d _ _

theorem Runs.steps (h : Runs past e marks d) : Steps true e d := by
  induction h with
  | refl => exact .refl
  | tail _ hoperation ih => exact ih.trans hoperation.steps

/-- **A run goes along the source.** -/
theorem Runs.along {source : String} (h : Runs past e marks d) (he : e.Along source) : d.Along source :=
  h.steps.along he

end Draft

end Lox
