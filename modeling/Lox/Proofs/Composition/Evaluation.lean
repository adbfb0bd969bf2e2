import Lox.Proofs.Evaluation
import Lox.Semantics.Behaviour

/-!
# Evaluating one program after another

What an evaluation does depends on the variables of the store only, not on the lines printed before,
and it closes every scope that it opens. So a program that is evaluated after another one does what
it does on its own with the globals that the other has left, and its lines come after those of the
other.

## Main definitions

* `Store.prepend`: a store with lines printed before.
* `Evaluation.Framed`: an evaluation that neither sees the lines printed nor leaves a scope open.
* `Decl.Behaves`: the behaviour of a program as evaluated.

## Main results

* `Decl.framed_execAll`: programs are evaluated like that.
* `Decl.Behaves.append_of_done` and its kin: the behaviour of a program that comes after another.
-/

namespace Lox

/-- The store with lines printed before. -/
def Store.prepend (lines : Array String) (s : Store) : Store :=
  { s with output := lines ++ s.output }

/-- What the evaluation comes to, with lines printed before. -/
def Evaluated.prepend {α : Type} (lines : Array String) : Evaluated α → Evaluated α
  | done x s => done x (s.prepend lines)
  | failed fault s => failed fault (s.prepend lines)
  | unfinished => unfinished

namespace Evaluation

variable {α β : Type} {f : Evaluation α} {g : α → Evaluation β}

/-- What is done one after the other has been done in the end. -/
theorem exists_of_bind_done {s s' : Store} {y : β} (h : (f >>= g) s = .done y s') :
    ∃ x t, f s = .done x t ∧ g x t = .done y s' := by
  cases hr : f s with
  | done x t =>
    rw [bind_of_done hr] at h
    exact ⟨x, t, rfl, h⟩
  | failed fault t =>
    rw [bind_of_failed hr] at h
    cases h
  | unfinished =>
    rw [bind_of_unfinished hr] at h
    cases h

/-- Lines printed before do not matter. -/
def Blind (f : Evaluation α) : Prop := ∀ lines s, f (s.prepend lines) = (f s).prepend lines

theorem Blind.bind (hf : f.Blind) (hg : ∀ x, (g x).Blind) : Blind (f >>= g) := by
  intro lines s
  have hlines := hf lines s
  cases hr : f s with
  | done x t =>
    rw [hr] at hlines
    rw [bind_of_done hlines, bind_of_done hr]
    exact hg x lines t
  | failed fault t =>
    rw [hr] at hlines
    rw [bind_of_failed hlines, bind_of_failed hr]
    rfl
  | unfinished =>
    rw [hr] at hlines
    rw [bind_of_unfinished hlines, bind_of_unfinished hr]
    rfl

/-- Lines printed before do not matter, and the scopes that the evaluation opens are closed. -/
structure Framed (f : Evaluation α) : Prop where
  blind : f.Blind
  depth : ∀ {s x s'}, f s = .done x s' → s'.frames.length = s.frames.length

namespace Framed

theorem pure (x : α) : Framed (Pure.pure x : Evaluation α) where
  blind _ _ := rfl
  depth h := by
    cases h
    rfl

theorem fail (fault : Fault) : Framed (Evaluation.fail fault : Evaluation α) where
  blind _ _ := rfl
  depth h := by cases h

theorem bind (hf : f.Framed) (hg : ∀ x, (g x).Framed) : Framed (f >>= g) where
  blind := hf.blind.bind fun x => (hg x).blind
  depth h := by
    obtain ⟨x, t, hr, h⟩ := exists_of_bind_done h
    exact ((hg x).depth h).trans (hf.depth hr)

theorem ofExcept (r : Except Fault α) : Framed (Evaluation.ofExcept r) := by
  cases r with
  | ok x => exact pure x
  | error fault => exact fail fault

theorem modify {change : Store → Store} (hdepth : ∀ s, (change s).frames.length = s.frames.length)
    (hlines : ∀ lines s, change (s.prepend lines) = (change s).prepend lines) :
    Framed (Evaluation.modify change) where
  blind lines s := congrArg (Evaluated.done ()) (hlines lines s)
  depth h := by
    cases h
    exact hdepth _

/-! ### Variables -/

theorem length_assignIn (name : String) (x : Datum) (frames : List Frame) :
    (Store.assignIn name x frames).length = frames.length := by
  induction frames with
  | nil => rfl
  | cons frame outer ih =>
    rw [Store.assignIn]
    split
    · rfl
    · exact congrArg (· + 1) ih

theorem read (name : String) : Framed (Evaluation.read name) where
  blind lines s := by
    rw [Evaluation.read, Evaluation.read, show (s.prepend lines).get name = s.get name from rfl]
    cases s.get name <;> rfl
  depth := by
    intro s x s' h
    rw [Evaluation.read] at h
    cases hget : s.get name with
    | some y =>
      rw [hget] at h
      cases h
      rfl
    | none =>
      rw [hget] at h
      cases h

theorem assign (name : String) (x : Datum) : Framed (Evaluation.assign name x) where
  blind lines s := by
    have hassign : (s.prepend lines).assign name x =
        (s.assign name x).map (Store.prepend lines) := by
      show (if (s.locals.lookup name).isSome then _ else if (s.globals name).isSome then _ else _) = _
      rw [Store.assign]
      split
      · rfl
      split <;> rfl
    rw [Evaluation.assign, Evaluation.assign, hassign]
    cases s.assign name x <;> rfl
  depth := by
    intro s y s' h
    have hlength : ∀ t, s.assign name x = some t → t.frames.length = s.frames.length := by
      intro t ht
      rw [Store.assign] at ht
      split at ht
      · cases ht
        exact length_assignIn name x s.frames
      split at ht <;> cases ht
      rfl
    rw [Evaluation.assign] at h
    cases hassign : s.assign name x with
    | some t =>
      rw [hassign] at h
      cases h
      exact hlength _ hassign
    | none =>
      rw [hassign] at h
      cases h

theorem declare (name : String) (x : Datum) : Framed (Evaluation.modify (·.declare name x)) := by
  refine modify (fun s => ?_) (fun lines s => ?_)
  · rw [Store.declare]
    cases s.frames <;> rfl
  · rw [Store.declare, Store.declare, show (s.prepend lines).frames = s.frames from rfl]
    cases s.frames <;> rfl

/-! ### Control -/

theorem inScope {inner : Evaluation Unit} (h : inner.Framed) : Framed (Evaluation.inScope inner) where
  blind := by
    have hchange : ∀ change : Store → Store,
        (∀ lines s, change (s.prepend lines) = (change s).prepend lines) →
        (Evaluation.modify change).Blind := fun change hchange lines s =>
      congrArg (Evaluated.done ()) (hchange lines s)
    exact (hchange Store.enter fun _ _ => rfl).bind fun _ =>
      h.blind.bind fun _ => hchange Store.leave fun _ _ => rfl
  depth := by
    intro s x s' hdone
    obtain ⟨_, t, henter, hdone⟩ := exists_of_bind_done hdone
    obtain ⟨_, u, hinner, hleave⟩ := exists_of_bind_done hdone
    cases henter
    cases hleave
    have hdepth := h.depth hinner
    rw [Store.enter, List.length_cons] at hdepth
    show u.frames.tail.length = _
    rw [List.length_tail, hdepth, Nat.add_sub_cancel]

theorem repeatWhile {condition : Evaluation Datum} {round : Evaluation Unit}
    (hcondition : condition.Framed) (hround : round.Framed) (bound : Nat) :
    Framed (Evaluation.repeatWhile condition round bound) := by
  induction bound with
  | zero =>
    refine ⟨fun _ _ => rfl, fun h => ?_⟩
    cases h
  | succ bound ih =>
    refine hcondition.bind fun x => ?_
    cases x.isFalsey with
    | true => exact pure ()
    | false => exact hround.bind fun _ => ih

end Framed

end Evaluation

open Evaluation

/-! ### Trees -/

theorem Expr.framed_eval (e : Expr) : e.eval.Framed := by
  induction e with
  | literal | number | string => exact .pure _
  | «variable» name => exact .read name
  | assign name value ih => exact ih.bind fun x => .assign name x
  | group inner ih => exact ih
  | unary op operand ih => exact ih.bind fun x => .ofExcept _
  | binary op left right ihl ihr => exact ihl.bind fun x => ihr.bind fun y => .ofExcept _
  | and left right ihl ihr =>
    refine ihl.bind fun x => ?_
    cases x.isFalsey with
    | true => exact .pure x
    | false => exact ihr
  | or left right ihl ihr =>
    refine ihl.bind fun x => ?_
    cases x.isFalsey with
    | true => exact ihr
    | false => exact .pure x

theorem Expr.framed_evalD (default : Datum) (e : Option Expr) : (Expr.evalD default e).Framed := by
  cases e with
  | none => exact .pure default
  | some e => exact e.framed_eval

theorem Decl.framed_execVar (name : String) (value : Option Expr) :
    (Decl.execVar name value).Framed :=
  (Expr.framed_evalD .nil value).bind fun x => .declare name x

theorem ForInit.framed_exec (first : ForInit) : first.exec.Framed := by
  cases first with
  | none => exact .pure ()
  | var name value => exact Decl.framed_execVar name value
  | expression e => exact e.framed_eval.bind fun _ => .pure ()

mutual

theorem Stmt.framed_exec (bound : Nat) (st : Stmt) : (st.exec bound).Framed := by
  match st with
  | .expression e => exact e.framed_eval.bind fun _ => .pure ()
  | .print e =>
    refine e.framed_eval.bind fun x => .modify (fun _ => rfl) fun lines s => ?_
    simp only [Store.print, Store.prepend, Array.append_push]
  | .block ds => exact (Decl.framed_execAll bound ds).inScope
  | .ifThen e s =>
    refine e.framed_eval.bind fun x => ?_
    cases x.isFalsey with
    | true => exact .pure ()
    | false => exact Stmt.framed_exec bound s
  | .ifElse e s s' =>
    refine e.framed_eval.bind fun x => ?_
    cases x.isFalsey with
    | true => exact Stmt.framed_exec bound s'
    | false => exact Stmt.framed_exec bound s
  | .whileLoop e s => exact .repeatWhile e.framed_eval (Stmt.framed_exec bound s) bound
  | .forLoop first condition increment s =>
    refine .inScope (first.framed_exec.bind fun _ => ?_)
    refine .repeatWhile (Expr.framed_evalD _ _) ((Stmt.framed_exec bound s).bind fun _ => ?_) bound
    exact (Expr.framed_evalD _ _).bind fun _ => .pure ()

theorem Decl.framed_exec (bound : Nat) (decl : Decl) : (decl.exec bound).Framed := by
  match decl with
  | .var name value => exact Decl.framed_execVar name value
  | .statement s => exact Stmt.framed_exec bound s

/-- **Declarations** close the scopes they open, and lines printed before do not matter. -/
theorem Decl.framed_execAll (bound : Nat) (decls : List Decl) :
    (Decl.execAll bound decls).Framed := by
  match decls with
  | [] => exact .pure ()
  | decl :: decls =>
    exact (Decl.framed_exec bound decl).bind fun _ => Decl.framed_execAll bound decls

end

/-! ### Behaviours of programs -/

/-- What can be seen of an evaluation. -/
def Evaluated.behaviour : Evaluated Unit → Behaviour
  | done _ s => .ended s.output s.globals
  | failed fault s => .failed fault.message s.globals
  | unfinished => .endless

theorem Evaluated.behaviour_prepend (lines : Array String) (r : Evaluated Unit) :
    (r.prepend lines).behaviour = r.behaviour.after lines := by
  cases r <;> rfl

/-- How a program behaves that is evaluated with some globals, as soon as the bound is great
enough. -/
def Decl.Behaves (program : List Decl) (globals : String → Option Datum) (b : Behaviour) : Prop :=
  ∃ least, ∀ bound, least ≤ bound →
    (Decl.execAll bound program (.start globals)).behaviour = b

section Behaves

variable {ds es program : List Decl} {globals : String → Option Datum} {b b' : Behaviour} {s : Store}
  {bound : Nat}

/-- With a greater bound, an evaluation that ends is the same. -/
theorem Decl.execAll_of_le {least : Nat} {r : Evaluated Unit}
    (h : Decl.execAll least program s = r) (hr : r ≠ .unfinished) (hle : least ≤ bound) :
    Decl.execAll bound program s = r :=
  ((Decl.extends_execAll hle program s).resolve_left (h ▸ hr)).trans h

theorem Decl.exists_behaves (program : List Decl) (globals : String → Option Datum) :
    ∃ b, Decl.Behaves program globals b := by
  by_cases hends : ∃ least, Decl.execAll least program (.start globals) ≠ .unfinished
  · obtain ⟨least, hends⟩ := hends
    exact ⟨_, least, fun bound hle => congrArg _ (Decl.execAll_of_le rfl hends hle)⟩
  · refine ⟨.endless, 0, fun bound _ => ?_⟩
    rw [not_not.mp (not_exists.mp hends bound)]
    rfl

theorem Decl.Behaves.unique (h : Decl.Behaves program globals b)
    (h' : Decl.Behaves program globals b') : b = b' := by
  obtain ⟨least, h⟩ := h
  obtain ⟨least', h'⟩ := h'
  exact (h _ (Nat.le_max_left least least')).symm.trans (h' _ (Nat.le_max_right least least'))

/-! ### One after the other -/

theorem Evaluation.bind_assoc {α β γ : Type} (f : Evaluation α) (g : α → Evaluation β)
    (h : β → Evaluation γ) : (f >>= g) >>= h = f >>= fun x => g x >>= h := by
  funext s
  cases hr : f s with
  | done x t =>
    rw [bind_of_done hr]
    simp only [Bind.bind, hr]
  | failed fault t => simp only [Bind.bind, hr]
  | unfinished => simp only [Bind.bind, hr]

/-- Declarations after others are evaluated after them. -/
theorem Decl.execAll_append (bound : Nat) (ds es : List Decl) :
    Decl.execAll bound (ds ++ es) = (do Decl.execAll bound ds; Decl.execAll bound es) := by
  induction ds with
  | nil => rfl
  | cons d ds ih =>
    rw [List.cons_append, Decl.execAll, ih, Decl.execAll, bind_assoc]

/-- After a program no scope is open, so that the next one starts as on its own, except for the
lines. -/
theorem Decl.execAll_of_done (h : Decl.execAll bound ds (.start globals) = .done () s)
    (bound' : Nat) (es : List Decl) : Decl.execAll bound' es s =
      (Decl.execAll bound' es (.start s.globals)).prepend s.output := by
  have hframes : s.frames = [] :=
    List.eq_nil_of_length_eq_zero ((Decl.framed_execAll bound ds).depth h)
  have hstart : s = (Store.start s.globals).prepend s.output := by
    rw [Store.start, Store.prepend, Array.append_empty, ← hframes]
  conv => lhs; rw [hstart]
  exact (Decl.framed_execAll bound' es).blind _ _

/-- Declarations after a program that ends behave as on their own with the globals it leaves. -/
theorem Decl.Behaves.append_of_done (h : Decl.execAll bound ds (.start globals) = .done () s)
    (hes : Decl.Behaves es s.globals b) : Decl.Behaves (ds ++ es) globals (b.after s.output) := by
  obtain ⟨least, hes⟩ := hes
  refine ⟨max bound least, fun bound' hle => ?_⟩
  obtain ⟨hds, hle⟩ := Nat.max_le.mp hle
  have hdone := Decl.execAll_of_le h (by rintro ⟨⟩) hds
  rw [Decl.execAll_append, bind_of_done hdone, Decl.execAll_of_done h, Evaluated.behaviour_prepend,
    hes bound' hle]

theorem Decl.Behaves.append_of_failed {fault : Fault}
    (h : Decl.execAll bound ds (.start globals) = .failed fault s) (es : List Decl) :
    Decl.Behaves (ds ++ es) globals (.failed fault.message s.globals) := by
  refine ⟨bound, fun bound' hle => ?_⟩
  have hfailed := Decl.execAll_of_le h (by rintro ⟨⟩) hle
  rw [Decl.execAll_append, bind_of_failed hfailed]
  rfl

theorem Decl.Behaves.append_of_endless (h : Decl.Behaves ds globals .endless) (es : List Decl) :
    Decl.Behaves (ds ++ es) globals .endless := by
  obtain ⟨least, h⟩ := h
  refine ⟨least, fun bound hle => ?_⟩
  have hbehaviour := h bound hle
  rw [Decl.execAll_append]
  cases hr : Decl.execAll bound ds (.start globals) with
  | unfinished =>
    rw [bind_of_unfinished hr]
    rfl
  | done x s =>
    rw [hr] at hbehaviour
    cases hbehaviour
  | failed fault s =>
    rw [hr] at hbehaviour
    cases hbehaviour

end Behaves

end Lox
