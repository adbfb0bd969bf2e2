import Lox.Semantics.Evaluation

/-!
# Bounds on evaluations

The bound on how often an evaluation goes around a loop decides whether it ends, but not how: an
evaluation that ends does so in the same way under every greater bound. So it makes sense to speak of
the one way in which a program ends.

## Main definitions

* `Evaluation.Extends`: an evaluation that ends where another does, and in the same way.

## Main results

* `Decl.extends_execAll`: greater bounds extend evaluations.
* `Decl.execAll_unique`: a program ends in one way only.
-/

namespace Lox

namespace Evaluation

variable {α β : Type} {f f' : Evaluation α} {g g' : α → Evaluation β}

/-- Where the first evaluation ends, so does the second, and in the same way. -/
def Extends (f f' : Evaluation α) : Prop := ∀ s, f s = .unfinished ∨ f' s = f s

theorem Extends.refl (f : Evaluation α) : f.Extends f := fun _ => .inr rfl

theorem Extends.bind (hf : f.Extends f') (hg : ∀ x, (g x).Extends (g' x)) :
    Extends (f >>= g) (f' >>= g') := by
  intro s
  cases hr : f s with
  | done x s' =>
    have hr' : f' s = .done x s' := ((hf s).resolve_left (by simp [hr])).trans hr
    rw [bind_of_done hr, bind_of_done hr']
    exact hg x s'
  | failed fault s' =>
    have hr' : f' s = .failed fault s' := ((hf s).resolve_left (by simp [hr])).trans hr
    rw [bind_of_failed hr, bind_of_failed hr']
    exact .inr rfl
  | unfinished => exact .inl (bind_of_unfinished hr g)

theorem Extends.inScope {inner inner' : Evaluation Unit} (h : inner.Extends inner') :
    (inScope inner).Extends (inScope inner') :=
  (refl _).bind fun _ => h.bind fun _ => refl _

theorem Extends.repeatWhile (condition : Evaluation Datum) {round round' : Evaluation Unit}
    (h : round.Extends round') {n n' : Nat} (hn : n ≤ n') :
    (repeatWhile condition round n).Extends (repeatWhile condition round' n') := by
  induction n generalizing n' with
  | zero => exact fun _ => .inl rfl
  | succ n ih =>
    obtain ⟨k, rfl⟩ := Nat.exists_eq_add_of_le hn
    rw [Nat.succ_add]
    refine (refl condition).bind fun x => ?_
    cases x.isFalsey with
    | true => exact refl _
    | false => exact h.bind fun _ => ih (Nat.le_add_right n k)

end Evaluation

open Evaluation

mutual

theorem Stmt.extends_exec {bound bound' : Nat} (hle : bound ≤ bound') (st : Stmt) :
    (st.exec bound).Extends (st.exec bound') := by
  match st with
  | .expression e => exact .refl _
  | .print e => exact .refl _
  | .block ds => exact (Decl.extends_execAll hle ds).inScope
  | .ifThen e s =>
    refine (Extends.refl e.eval).bind fun x => ?_
    cases x.isFalsey with
    | true => exact .refl _
    | false => exact Stmt.extends_exec hle s
  | .ifElse e s s' =>
    refine (Extends.refl e.eval).bind fun x => ?_
    cases x.isFalsey with
    | true => exact Stmt.extends_exec hle s'
    | false => exact Stmt.extends_exec hle s
  | .whileLoop e s => exact (Stmt.extends_exec hle s).repeatWhile e.eval hle
  | .forLoop first condition increment s =>
    refine Extends.inScope ((Extends.refl first.exec).bind fun _ => ?_)
    exact ((Stmt.extends_exec hle s).bind fun _ => .refl _).repeatWhile _ hle

theorem Decl.extends_exec {bound bound' : Nat} (hle : bound ≤ bound') (decl : Decl) :
    (decl.exec bound).Extends (decl.exec bound') := by
  match decl with
  | .var name value => exact .refl _
  | .statement s => exact Stmt.extends_exec hle s

/-- **Greater bounds** extend evaluations. -/
theorem Decl.extends_execAll {bound bound' : Nat} (hle : bound ≤ bound') (decls : List Decl) :
    (Decl.execAll bound decls).Extends (Decl.execAll bound' decls) := by
  match decls with
  | [] => exact .refl _
  | decl :: decls =>
    exact (Decl.extends_exec hle decl).bind fun _ => Decl.extends_execAll hle decls

end

/-- A program ends in one way only. -/
theorem Decl.execAll_unique {bound bound' : Nat} {decls : List Decl} {s : Store}
    (h : Decl.execAll bound decls s ≠ .unfinished)
    (h' : Decl.execAll bound' decls s ≠ .unfinished) :
    Decl.execAll bound decls s = Decl.execAll bound' decls s := by
  rcases Nat.le_total bound bound' with hle | hle
  · exact ((Decl.extends_execAll hle decls s).resolve_left h).symm
  · exact (Decl.extends_execAll hle decls s).resolve_left h'

end Lox
