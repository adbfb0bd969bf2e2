import Lox.Proofs.Draft.Scopes
import Lox.Proofs.Simulation.Expression

/-!
# Simulating statements

The code of a statement leaves nothing on the stack, and that of a declaration nothing but the local
that it declares. The evaluation of a statement has a bound on how often it goes around each loop,
and if it is unfinished for that reason, the machine has taken at least as many steps.

## Main results

* `Machine.Agrees.simulates_choice`, `Machine.Agrees.simulates_repeating`,
  `Machine.Agrees.simulates_inScope`: branches, loops and scopes.
* `Stmt.simulates`, `Decl.simulates`, `Decl.simulatesAll`: statements and declarations.
-/

namespace Lox

namespace Machine

variable {c : Chunk} {i : Interner} {scopes : Scopes} {offset least : Nat} {above : List Datum}
  {s : Store} {m : Machine} {x : Datum}

/-- The machine has come to an offset, with nothing above the locals. -/
def Arrives (i : Interner) (scopes : Scopes) (offset : Nat) (_ : Unit) (s : Store) (m : Machine) :
    Prop := m.Agrees i scopes offset [] s

/-! ### Branches -/

/-- One of two pieces of code is executed. -/
theorem Agrees.simulates_choice {yes no : List Instruction} {f g : Evaluation Unit}
    (h : m.Agrees i scopes offset [x] s) (hholds : c.Holds offset (choice yes no))
    (hyes : ∀ (start : Nat) (m' : Machine), c.Holds start yes → m'.Agrees i scopes start [] s →
      Simulates c least m' (Arrives i scopes (start + codeSize yes)) (f s))
    (hno : ∀ (start : Nat) (m' : Machine), c.Holds start no → m'.Agrees i scopes start [] s →
      Simulates c least m' (Arrives i scopes (start + codeSize no)) (g s)) :
    Simulates c least m (Arrives i scopes (offset + codeSize (choice yes no)))
      ((if x.isFalsey then g else f) s) := by
  obtain ⟨hfirst, hrest⟩ := Chunk.holds_append.mp hholds
  obtain ⟨hread, hfirst⟩ := Chunk.holds_cons.mp hfirst
  obtain ⟨hreadPop, hholdsYes⟩ := Chunk.holds_cons.mp hfirst
  obtain ⟨hreadJump, hrest⟩ := Chunk.holds_cons.mp hrest
  obtain ⟨hreadOther, hholdsNo⟩ := Chunk.holds_cons.mp hrest
  have hjump : offset + codeSize (⟨.jumpIfFalse, 1 + codeSize yes + 3⟩ :: ⟨.pop, 0⟩ :: yes) =
      offset + 4 + codeSize yes := by
    rw [codeSize_cons, codeSize_cons, ← Nat.add_assoc, ← Nat.add_assoc]
    rfl
  have hsize : offset + codeSize (choice yes no) =
      offset + 4 + codeSize yes + 4 + codeSize no := by
    rw [choice, codeSize_append, ← Nat.add_assoc, hjump, codeSize_cons, codeSize_cons,
      ← Nat.add_assoc, ← Nat.add_assoc]
    rfl
  have htarget : offset + 3 + (1 + codeSize yes + 3) = offset + 4 + codeSize yes + 3 := by omega
  have hend : offset + 4 + codeSize yes + 3 + (1 + codeSize no) =
      offset + 4 + codeSize yes + 4 + codeSize no := by omega
  rw [hjump] at hreadJump hreadOther hholdsNo
  obtain ⟨next, hstep, hnext⟩ := h.exists_jumpIfFalse hread
  rw [hsize]
  refine .of_step hstep ?_
  by_cases hfalsey : x.isFalsey = true
  · rw [if_pos hfalsey, htarget] at hnext
    rw [if_pos hfalsey]
    obtain ⟨next', hstep', hnext'⟩ := hnext.exists_pop hreadOther
    exact .of_step hstep' (hno _ next' hholdsNo hnext')
  · rw [if_neg hfalsey] at hnext ⊢
    obtain ⟨next', hstep', hnext'⟩ := hnext.exists_pop hreadPop
    refine .of_step hstep' ((hyes _ next' hholdsYes hnext').after fun _ s' m' hm' => ?_)
    obtain ⟨last, hlast, hagrees⟩ := Agrees.exists_jump hm' hreadJump
    exact ⟨1, last, .single hlast, hend ▸ hagrees⟩

/-! ### Scopes -/

/-- A number of values are dropped. -/
theorem Agrees.exists_pops {values : List Datum} (h : m.Agrees i scopes offset (values ++ above) s)
    (hholds : c.Holds offset (List.replicate values.length ⟨.pop, 0⟩)) :
    ∃ next, Runs c values.length m next ∧
      next.Agrees i scopes (offset + values.length) above s := by
  induction values generalizing offset m with
  | nil => exact ⟨m, rfl, h⟩
  | cons x values ih =>
    obtain ⟨hread, hholds⟩ := Chunk.holds_cons.mp hholds
    obtain ⟨next, hstep, hnext⟩ := h.exists_pop hread
    obtain ⟨last, hruns, hlast⟩ := ih hnext hholds
    rw [Nat.add_assoc, Nat.add_comm 1] at hlast
    exact ⟨last, ⟨next, hstep, hruns⟩, hlast⟩

theorem Agrees.enter (h : m.Agrees i scopes offset [] s) :
    m.Agrees i ([] :: scopes) offset [] s.enter :=
  { h with scopes := congrArg ([] :: ·) h.scopes }

/-- When a scope is left its locals are values like others. -/
theorem Agrees.leave {scope : List String} (h : m.Agrees i (scope :: scopes) offset [] s) :
    ∃ values, values.length = scope.length ∧ m.Agrees i scopes offset values s.leave := by
  obtain ⟨globals, frames, output⟩ := s
  obtain ⟨frame, outer, rfl, hframe, houter⟩ := List.map_eq_cons_iff.mp h.scopes
  have hstack := h.stack
  rw [Store.values, Store.locals, List.flatten_cons, List.map_append] at hstack
  refine ⟨frame.map Prod.snd, ?_, { h with scopes := houter, stack := hstack }⟩
  rw [← hframe, List.length_map, List.length_map]

theorem codeSize_dropLocals (scope : List String) (outer : Scopes) :
    codeSize (dropLocals (scope :: outer)) = scope.length := by
  show codeSize (List.replicate scope.length ⟨.pop, 0⟩) = _
  induction scope with
  | nil => rfl
  | cons name scope ih =>
    rw [List.length_cons, List.replicate_succ, codeSize_cons, ih, Nat.add_comm]
    rfl

theorem Agrees.simulates_inScope {inside : Scopes} {scope : List String} {last : Nat}
    {inner : Evaluation Unit} (hscope : inside = scope :: scopes)
    (hinner : Simulates c least m (Arrives i inside last) (inner s.enter))
    (hholds : c.Holds last (dropLocals inside)) :
    Simulates c least m (Arrives i scopes (last + codeSize (dropLocals inside)))
      (Evaluation.inScope inner s) := by
  subst hscope
  have hleave : Simulates c least m (Arrives i scopes (last + scope.length))
      ((inner >>= fun _ => Evaluation.modify Store.leave) s.enter) := by
    refine hinner.bind fun _ s' m' hm' => ?_
    obtain ⟨values, hlength, hvalues⟩ := Agrees.leave hm'
    rw [← List.append_nil values] at hvalues
    rw [dropLocals, show Scopes.innermostSize (scope :: scopes) = values.length from hlength.symm]
      at hholds
    obtain ⟨next, hruns, hnext⟩ := hvalues.exists_pops hholds
    rw [← hlength]
    exact ⟨_, next, hruns, hnext⟩
  rw [codeSize_dropLocals]
  exact hleave

/-! ### Loops -/

section Loops

variable {constants pool : Pool} {condition increment : Option (List Instruction)}
  {body : List Instruction}

theorem codeSize_loopHead (exit : Nat) (condition : Option (List Instruction)) :
    codeSize (loopHead exit condition) = loopHeadSize condition := by
  cases condition with
  | none => rfl
  | some code =>
    rw [loopHead, codeSize_append]
    rfl

/-- The pieces of a loop. -/
theorem holds_repeating (h : c.Holds offset (repeating condition increment body)) :
    let head := loopHeadSize condition
    let step := loopStep head increment
    let beyond := codeSize step + codeSize body + 3
    c.Holds offset (loopHead (1 + beyond) condition) ∧ c.Holds (offset + head) step ∧
      c.Holds (offset + head + codeSize step) body ∧
      c.instruction? (offset + head + codeSize step + codeSize body) =
        some ⟨.loop, loopBack head increment + codeSize body + 3⟩ ∧
      c.Holds (offset + head + beyond) (loopExit condition) := by
  intro head step beyond
  rw [repeating] at h
  obtain ⟨h, hloop⟩ := Chunk.holds_append.mp h
  obtain ⟨h, hbody⟩ := Chunk.holds_append.mp h
  obtain ⟨hhead, hstep⟩ := Chunk.holds_append.mp h
  obtain ⟨hread, hexit⟩ := Chunk.holds_cons.mp hloop
  rw [codeSize_loopHead] at hstep
  rw [codeSize_append, codeSize_loopHead, ← Nat.add_assoc] at hbody
  rw [codeSize_append, codeSize_append, codeSize_loopHead, ← Nat.add_assoc, ← Nat.add_assoc]
    at hread hexit
  have hbeyond : 1 + codeSize step + codeSize body + 3 = 1 + beyond := by omega
  have hlast : offset + head + codeSize step + codeSize body + 3 = offset + head + beyond := by omega
  rw [hbeyond] at hhead
  rw [← hlast]
  exact ⟨hhead, hstep, hbody, hread, hexit⟩

theorem codeSize_repeating (condition increment : Option (List Instruction))
    (body : List Instruction) :
    codeSize (repeating condition increment body) = loopHeadSize condition +
      (codeSize (loopStep (loopHeadSize condition) increment) + codeSize body + 3) +
      codeSize (loopExit condition) := by
  rw [repeating, codeSize_append, codeSize_append, codeSize_append, codeSize_loopHead, codeSize_cons,
    ← Nat.add_assoc, ← Nat.add_assoc, ← Nat.add_assoc]
  rfl

/-- The start of a loop: the condition decides whether the machine comes to the end of the loop or
goes on behind the start. -/
theorem Agrees.simulates_loopHead {constants pool : Pool} {condition : Option Expr}
    (hpool : List.Forall₂ (Value.Denotes i) c.constants.toList constants)
    (hconstants : pool.addAll (Expr.constantsOption scopes condition) <+: constants) {beyond : Nat}
    (hholds : c.Holds offset (loopHead (1 + beyond) (condition.map (·.code scopes pool))))
    (hexit : c.Holds (offset + loopHeadSize (condition.map (·.code scopes pool)) + beyond)
      (loopExit (condition.map (·.code scopes pool))))
    (h : m.Agrees i scopes offset [] s) :
    let head := loopHeadSize (condition.map (·.code scopes pool))
    let last := offset + head + beyond + codeSize (loopExit (condition.map (·.code scopes pool)))
    Simulates c least m (fun x s' m' => if x.isFalsey then m'.Agrees i scopes last [] s'
      else m'.Agrees i scopes (offset + head) [] s') (Expr.evalD (.bool true) condition s) := by
  cases condition with
  | none => exact .done h
  | some e =>
    have hsize : offset + codeSize (e.code scopes pool) + 3 + (1 + beyond) =
        offset + (codeSize (e.code scopes pool) + 4) + beyond := by omega
    obtain ⟨hcode, hrest⟩ := Chunk.holds_append.mp hholds
    obtain ⟨hread, hrest⟩ := Chunk.holds_cons.mp hrest
    obtain ⟨hreadPop, -⟩ := Chunk.holds_cons.mp hrest
    refine (e.simulates hpool hconstants hcode h).after fun x s' m' hx => ?_
    obtain ⟨next, hstep, hnext⟩ := Agrees.exists_jumpIfFalse hx hread
    by_cases hfalsey : x.isFalsey = true
    · rw [if_pos hfalsey, hsize] at hnext
      obtain ⟨next', hstep', hnext'⟩ := hnext.exists_pop (Chunk.holds_singleton.mp hexit)
      refine ⟨2, next', ⟨next, hstep, .single hstep'⟩, ?_⟩
      rw [if_pos hfalsey]
      exact hnext'
    · rw [if_neg hfalsey] at hnext
      obtain ⟨next', hstep', hnext'⟩ := hnext.exists_pop hreadPop
      refine ⟨2, next', ⟨next, hstep, .single hstep'⟩, ?_⟩
      rw [if_neg hfalsey]
      exact hnext'

/-- **Loops.** A round is what follows the start of the loop, up to the jump back to it. -/
theorem Agrees.simulates_repeating (condition : Option Expr) {round : Evaluation Unit} {bound : Nat}
    (hpool : List.Forall₂ (Value.Denotes i) c.constants.toList constants)
    (hconstants : pool.addAll (Expr.constantsOption scopes condition) <+: constants)
    (hholds : c.Holds offset (repeating (condition.map (·.code scopes pool)) increment body))
    (hround : ∀ s m, m.Agrees i scopes (offset + loopHeadSize (condition.map (·.code scopes pool)))
      [] s → Simulates c bound m (fun _ s' m' => ∃ next, m'.step c = .running next ∧
        next.Agrees i scopes offset [] s') (round s))
    (h : m.Agrees i scopes offset [] s) :
    Simulates c bound m (Arrives i scopes
      (offset + codeSize (repeating (condition.map (·.code scopes pool)) increment body)))
      (Evaluation.repeatWhile (Expr.evalD (.bool true) condition) round bound s) := by
  obtain ⟨hhead, -, -, -, hexit⟩ := holds_repeating hholds
  rw [codeSize_repeating, ← Nat.add_assoc, ← Nat.add_assoc]
  exact .repeatWhile (I := fun s m => m.Agrees i scopes offset [] s)
    (fun s m hm => hm.simulates_loopHead hpool hconstants hhead hexit) hround (Nat.le_refl bound) h

/-- The jump at the end of the body. -/
theorem Agrees.exists_loopBack (hholds : c.Holds offset (repeating condition increment body))
    (h : m.Agrees i scopes (offset + loopHeadSize condition +
      codeSize (loopStep (loopHeadSize condition) increment) + codeSize body) [] s) :
    ∃ next, m.step c = .running next ∧ next.Agrees i scopes (offset + loopHeadSize condition +
      codeSize (loopStep (loopHeadSize condition) increment) -
        loopBack (loopHeadSize condition) increment) [] s := by
  obtain ⟨-, -, -, hread, -⟩ := holds_repeating hholds
  have hback : loopBack (loopHeadSize condition) increment ≤ offset + loopHeadSize condition +
      codeSize (loopStep (loopHeadSize condition) increment) := by
    cases increment with
    | none => exact Nat.le_add_left _ _
    | some code =>
      rw [loopBack, loopStep, codeSize_append, codeSize_cons]
      show _ ≤ _ + (3 + codeSize code + 4)
      omega
  have htarget : ∀ last back size : Nat, last + size + 3 - (back + size + 3) = last - back := by omega
  obtain ⟨next, hstep, hnext⟩ := h.exists_loop hread (by omega)
  rw [htarget] at hnext
  exact ⟨next, hstep, hnext⟩

/-- A round of a loop without an increment. -/
theorem Agrees.simulates_round_none {exec : Evaluation Unit} {bound : Nat}
    (hholds : c.Holds offset (repeating condition none body))
    (hbody : ∀ (start : Nat) (s : Store) (m : Machine), c.Holds start body →
      m.Agrees i scopes start [] s →
      Simulates c bound m (Arrives i scopes (start + codeSize body)) (exec s))
    (h : m.Agrees i scopes (offset + loopHeadSize condition) [] s) :
    Simulates c bound m (fun _ s' m' => ∃ next, m'.step c = .running next ∧
      next.Agrees i scopes offset [] s') (exec s) := by
  obtain ⟨-, -, hcode, -, -⟩ := holds_repeating hholds
  refine (hbody _ s m hcode h).after fun _ s' m' hm' => ⟨0, m', rfl, ?_⟩
  obtain ⟨next, hstep, hnext⟩ := Agrees.exists_loopBack hholds hm'
  exact ⟨next, hstep, Nat.add_sub_cancel offset _ ▸ hnext⟩

/-- A round of a loop with an increment, which stands before the body but follows it. -/
theorem Agrees.simulates_round_some {e : Expr} {exec : Evaluation Unit} {bound : Nat}
    (hpool : List.Forall₂ (Value.Denotes i) c.constants.toList constants)
    (hconstants : pool.addAll (e.constants scopes) <+: constants)
    (hholds : c.Holds offset (repeating condition (some (e.code scopes pool)) body))
    (hbody : ∀ (start : Nat) (s : Store) (m : Machine), c.Holds start body →
      m.Agrees i scopes start [] s →
      Simulates c bound m (Arrives i scopes (start + codeSize body)) (exec s))
    (h : m.Agrees i scopes (offset + loopHeadSize condition) [] s) :
    Simulates c bound m (fun _ s' m' => ∃ next, m'.step c = .running next ∧
      next.Agrees i scopes offset [] s') ((exec >>= fun _ => discard e.eval) s) := by
  obtain ⟨-, hstep, hholdsBody, -, -⟩ := holds_repeating hholds
  obtain ⟨hincrement, hlast⟩ := Chunk.holds_append.mp hstep
  obtain ⟨hreadJump, hcode⟩ := Chunk.holds_cons.mp hincrement
  obtain ⟨hreadPop, hloop⟩ := Chunk.holds_cons.mp hlast
  have hcode : c.Holds (offset + loopHeadSize condition + 3) (e.code scopes pool) := hcode
  have hsize : ∀ distance, codeSize (⟨.jump, distance⟩ :: e.code scopes pool) =
      3 + codeSize (e.code scopes pool) := fun _ => codeSize_cons _ _
  have hstepSize : codeSize (loopStep (loopHeadSize condition) (some (e.code scopes pool))) =
      3 + (codeSize (e.code scopes pool) + 4) := by
    rw [loopStep, codeSize_append, hsize]
    rfl
  rw [hsize, ← Nat.add_assoc] at hreadPop hloop
  obtain ⟨next, hjump, hnext⟩ := h.exists_jump hreadJump
  rw [hstepSize, ← Nat.add_assoc] at hholdsBody
  refine .of_step hjump ((hbody _ s next hholdsBody hnext).bind fun _ s' m' hm' => ?_)
  obtain ⟨back, hback, hagrees⟩ := Agrees.exists_loopBack hholds
    (by rw [hstepSize, ← Nat.add_assoc]; exact hm')
  have htarget : offset + loopHeadSize condition + (3 + (codeSize (e.code scopes pool) + 4)) -
      (codeSize (e.code scopes pool) + 4) = offset + loopHeadSize condition + 3 := by omega
  rw [hstepSize, loopBack, htarget] at hagrees
  refine .of_step hback ((e.simulates hpool hconstants hcode hagrees).bind fun x s'' m'' hx => ?_)
  obtain ⟨popped, hpop, hpopped⟩ := Agrees.exists_pop hx hreadPop
  obtain ⟨last, hend, hlast⟩ := hpopped.exists_loop (Chunk.holds_singleton.mp hloop) (by omega)
  refine .of_step hpop (.done ⟨last, hend, ?_⟩)
  have hstart : offset + loopHeadSize condition + 3 + codeSize (e.code scopes pool) + 1 + 3 -
      (loopHeadSize condition + codeSize (e.code scopes pool) + 7) = offset := by omega
  exact hstart ▸ hlast

/-- A round of a loop that may have an increment. -/
theorem Agrees.simulates_round {increment : Option Expr} {exec : Evaluation Unit} {bound : Nat}
    (hpool : List.Forall₂ (Value.Denotes i) c.constants.toList constants)
    (hconstants : pool.addAll (Expr.constantsOption scopes increment) <+: constants)
    (hholds : c.Holds offset (repeating condition (increment.map (·.code scopes pool)) body))
    (hbody : ∀ (start : Nat) (s : Store) (m : Machine), c.Holds start body →
      m.Agrees i scopes start [] s →
      Simulates c bound m (Arrives i scopes (start + codeSize body)) (exec s))
    (h : m.Agrees i scopes (offset + loopHeadSize condition) [] s) :
    Simulates c bound m (fun _ s' m' => ∃ next, m'.step c = .running next ∧
      next.Agrees i scopes offset [] s')
      ((exec >>= fun _ => discard (Expr.evalD .nil increment)) s) := by
  cases increment with
  | none =>
    refine (Agrees.simulates_round_none hholds hbody h).bind fun _ s' m' hm' => ?_
    exact .done hm'
  | some e => exact h.simulates_round_some hpool hconstants hholds hbody

end Loops

end Machine

open Machine

/-! ### Statements -/

section Statements

variable {c : Chunk} {i : Interner} {constants pool : Pool} {scopes : Scopes} {offset bound : Nat}
  {s : Store} {m : Machine}

/-- The initial value of a variable. -/
theorem Expr.simulates_initialCode
    (hpool : List.Forall₂ (Value.Denotes i) c.constants.toList constants) {value : Option Expr}
    (hconstants : pool.addAll (Expr.constantsOption scopes value) <+: constants)
    (hholds : c.Holds offset (Expr.initialCode scopes pool value))
    (h : m.Agrees i scopes offset [] s) :
    Simulates c bound m
      (Leaves i scopes (offset + codeSize (Expr.initialCode scopes pool value)) [])
      (Expr.evalD .nil value s) := by
  cases value with
  | none =>
    obtain ⟨next, hstep, hnext⟩ :=
      h.exists_push (Chunk.holds_singleton.mp hholds) nofun .nil fun _ => rfl
    exact .of_step hstep (.done hnext)
  | some e => exact e.simulates hpool hconstants hholds h

/-- Declaring a local: its value is on the stack already. -/
theorem Machine.Agrees.declare {x : Datum} (h : m.Agrees i scopes offset [x] s)
    (hscopes : scopes ≠ []) (name : String) :
    m.Agrees i (scopes.declare name) offset [] (s.declare name x) := by
  obtain ⟨hvalues, hglobals, houtput⟩ :=
    Store.values_declare (s := s) (by rwa [h.scopes]) name x
  exact {
    offset := h.offset
    interner := h.interner
    world := h.world
    globals := h.globals.trans hglobals.symm
    output := h.output.trans houtput.symm
    scopes := (Store.scopes_declare s name x).trans (congrArg (Scopes.declare name) h.scopes)
    stack := by
      rw [hvalues]
      exact h.stack }

/-- **Variables** -/
theorem Decl.simulates_var
    (hpool : List.Forall₂ (Value.Denotes i) c.constants.toList constants) {name : String}
    {value : Option Expr}
    (hconstants : pool.addAll (Decl.varConstants scopes name value) <+: constants)
    (hholds : c.Holds offset (Decl.varCode scopes pool name value))
    (h : m.Agrees i scopes offset [] s) :
    Simulates c bound m
      (Arrives i (scopes.declare name) (offset + codeSize (Decl.varCode scopes pool name value)))
      (Decl.execVar name value s) := by
  rw [Decl.varConstants] at hconstants
  rw [Decl.varCode] at hholds ⊢
  by_cases hscopes : scopes = []
  · rw [if_pos hscopes] at hconstants hholds ⊢
    obtain ⟨hvalue, hdefine⟩ := Chunk.holds_append.mp hholds
    have hname := Pool.getElem?_indexOf_of_prefix (Pool.addAll_prefix_left hconstants)
    rw [codeSize_append, ← Nat.add_assoc]
    refine (Expr.simulates_initialCode hpool (Pool.addAll_prefix_right hconstants) hvalue h).bind
      fun x s' m' hx => ?_
    obtain ⟨next, hstep, hnext⟩ := Agrees.exists_defineGlobal hpool hname hscopes hx
      (Chunk.holds_singleton.mp hdefine)
    refine .of_step hstep (.done ?_)
    subst hscopes
    exact hnext
  · rw [if_neg hscopes] at hconstants hholds ⊢
    refine (Expr.simulates_initialCode hpool hconstants hholds h).bind fun x s' m' hx => ?_
    exact .done (Agrees.declare hx hscopes name)

/-- An expression whose value is dropped. -/
theorem Expr.simulates_discard
    (hpool : List.Forall₂ (Value.Denotes i) c.constants.toList constants) (e : Expr)
    (hconstants : pool.addAll (e.constants scopes) <+: constants)
    (hholds : c.Holds offset (e.code scopes pool ++ [⟨.pop, 0⟩]))
    (h : m.Agrees i scopes offset [] s) :
    Simulates c bound m (Arrives i scopes (offset + codeSize (e.code scopes pool ++ [⟨.pop, 0⟩])))
      ((discard e.eval : Evaluation Unit) s) := by
  obtain ⟨hcode, hpop⟩ := Chunk.holds_append.mp hholds
  rw [codeSize_append, ← Nat.add_assoc]
  refine (e.simulates hpool hconstants hcode h).bind fun x s' m' hx => ?_
  obtain ⟨next, hstep, hnext⟩ := Agrees.exists_pop hx (Chunk.holds_singleton.mp hpop)
  exact .of_step hstep (.done hnext)

theorem ForInit.simulates
    (hpool : List.Forall₂ (Value.Denotes i) c.constants.toList constants) {first : ForInit}
    (hconstants : pool.addAll (first.constants scopes) <+: constants)
    (hholds : c.Holds offset (first.code scopes pool)) (h : m.Agrees i scopes offset [] s) :
    Simulates c bound m
      (Arrives i (first.scopesAfter scopes) (offset + codeSize (first.code scopes pool)))
      (first.exec s) := by
  cases first with
  | none => exact .done h
  | var name value => exact Decl.simulates_var hpool hconstants hholds h
  | expression e => exact e.simulates_discard hpool hconstants hholds h

mutual

/-- **Statements** -/
theorem Stmt.simulates (bound : Nat)
    (hpool : List.Forall₂ (Value.Denotes i) c.constants.toList constants)
    (st : Stmt) {scopes : Scopes} {pool : Pool} {offset : Nat} {s : Store} {m : Machine}
    (hconstants : pool.addAll (st.constants scopes) <+: constants)
    (hholds : c.Holds offset (st.code scopes pool)) (h : m.Agrees i scopes offset [] s) :
    Simulates c bound m (Arrives i scopes (offset + codeSize (st.code scopes pool)))
      (st.exec bound s) := by
  match st with
  | .expression e =>
    rw [Stmt.exec]
    exact e.simulates_discard hpool hconstants hholds h
  | .print e =>
    obtain ⟨hcode, hprint⟩ := Chunk.holds_append.mp hholds
    rw [Stmt.exec, Stmt.code, codeSize_append, ← Nat.add_assoc]
    refine (e.simulates hpool hconstants hcode h).bind fun x s' m' hx => ?_
    obtain ⟨next, hstep, hnext⟩ := Agrees.exists_print hx (Chunk.holds_singleton.mp hprint)
    exact .of_step hstep (.done hnext)
  | .block ds =>
    obtain ⟨scope, hscope⟩ := Decl.exists_scopesAfterAll ds [] scopes
    obtain ⟨hbody, hdrop⟩ := Chunk.holds_append.mp hholds
    have hinner := Decl.simulatesAll bound hpool ds hconstants hbody h.enter
    rw [Stmt.exec, Stmt.code, codeSize_append, ← Nat.add_assoc]
    exact Agrees.simulates_inScope hscope hinner hdrop
  | .ifThen e s₁ =>
    obtain ⟨hcode, hchoice⟩ := Chunk.holds_append.mp hholds
    rw [Stmt.exec, Stmt.code, codeSize_append, ← Nat.add_assoc]
    refine (e.simulates hpool (Pool.addAll_prefix_left hconstants) hcode h).bind
      fun x s' m' hx => ?_
    have hbranch : (if !x.isFalsey then s₁.exec bound else pure ()) =
        if x.isFalsey then pure () else s₁.exec bound := by cases x.isFalsey <;> rfl
    show Simulates _ _ _ _ ((if !x.isFalsey then s₁.exec bound else pure ()) s')
    rw [hbranch]
    exact Agrees.simulates_choice hx hchoice
      (fun start m'' hyes hm'' => Stmt.simulates bound hpool s₁ (Pool.addAll_prefix_right hconstants) hyes hm'')
      fun start m'' _ hm'' => .done hm''
  | .ifElse e s₁ s₂ =>
    obtain ⟨hcode, hchoice⟩ := Chunk.holds_append.mp hholds
    have hleft := Pool.addAll_prefix_left hconstants
    have hother := Pool.addAll_prefix_right hconstants
    rw [Pool.addAll_append] at hother
    rw [Stmt.exec, Stmt.code, codeSize_append, ← Nat.add_assoc]
    refine (e.simulates hpool (Pool.addAll_prefix_left hleft) hcode h).bind fun x s' m' hx => ?_
    exact Agrees.simulates_choice hx hchoice
      (fun start m'' hyes hm'' => Stmt.simulates bound hpool s₁ (Pool.addAll_prefix_right hleft) hyes hm'')
      fun start m'' hno hm'' => Stmt.simulates bound hpool s₂ hother hno hm''
  | .whileLoop e s₁ =>
    rw [Stmt.exec]
    exact Agrees.simulates_repeating (some e) hpool (Pool.addAll_prefix_left hconstants) hholds
      (fun s' m' hm' => hm'.simulates_round_none hholds fun start s'' m'' hbody hm'' =>
        Stmt.simulates bound hpool s₁ (Pool.addAll_prefix_right hconstants) hbody hm'') h
  | .forLoop first condition increment s₁ =>
    obtain ⟨scope, hscope⟩ := first.exists_scopesAfter [] scopes
    obtain ⟨hloop, hdrop⟩ := Chunk.holds_append.mp hholds
    obtain ⟨hfirst, hloop⟩ := Chunk.holds_append.mp hloop
    rw [Stmt.constants] at hconstants
    have hclauses := Pool.addAll_prefix_left hconstants
    have hheads := Pool.addAll_prefix_left hclauses
    have hpoolIncrement := Pool.addAll_prefix_right hclauses
    have hpoolBody := Pool.addAll_prefix_right hconstants
    rw [Pool.addAll_append] at hpoolIncrement
    rw [Pool.addAll_append, Pool.addAll_append] at hpoolBody
    rw [Stmt.exec, Stmt.code, codeSize_append, codeSize_append, ← Nat.add_assoc, ← Nat.add_assoc]
    rw [codeSize_append, ← Nat.add_assoc] at hdrop
    refine Agrees.simulates_inScope hscope ?_ hdrop
    refine (ForInit.simulates hpool (Pool.addAll_prefix_left hheads) hfirst h.enter).bind
      fun _ s' m' hm' => ?_
    exact Agrees.simulates_repeating condition hpool (Pool.addAll_prefix_right hheads) hloop
      (fun s₂ m₂ h₂ => h₂.simulates_round hpool hpoolIncrement hloop fun start s₃ m₃ hbody h₃ =>
        Stmt.simulates bound hpool s₁ hpoolBody hbody h₃) hm'

/-- **Declarations** -/
theorem Decl.simulates (bound : Nat)
    (hpool : List.Forall₂ (Value.Denotes i) c.constants.toList constants)
    (decl : Decl) {scopes : Scopes} {pool : Pool} {offset : Nat} {s : Store} {m : Machine}
    (hconstants : pool.addAll (decl.constants scopes) <+: constants)
    (hholds : c.Holds offset (decl.code scopes pool)) (h : m.Agrees i scopes offset [] s) :
    Simulates c bound m
      (Arrives i (decl.scopesAfter scopes) (offset + codeSize (decl.code scopes pool)))
      (decl.exec bound s) := by
  match decl with
  | .var name value =>
    rw [Decl.exec]
    exact Decl.simulates_var hpool hconstants hholds h
  | .statement st =>
    rw [Decl.exec]
    exact Stmt.simulates bound hpool st hconstants hholds h

/-- **Declarations** one after the other. -/
theorem Decl.simulatesAll (bound : Nat)
    (hpool : List.Forall₂ (Value.Denotes i) c.constants.toList constants)
    (decls : List Decl) {scopes : Scopes} {pool : Pool} {offset : Nat} {s : Store} {m : Machine}
    (hconstants : pool.addAll (Decl.constantsAll scopes decls) <+: constants)
    (hholds : c.Holds offset (Decl.codeAll scopes decls pool))
    (h : m.Agrees i scopes offset [] s) :
    Simulates c bound m (Arrives i (Decl.scopesAfterAll scopes decls)
      (offset + codeSize (Decl.codeAll scopes decls pool))) (Decl.execAll bound decls s) := by
  match decls with
  | [] => exact .done h
  | decl :: decls =>
    obtain ⟨hfirst, hrest⟩ := Chunk.holds_append.mp hholds
    rw [Decl.execAll, Decl.codeAll, codeSize_append, ← Nat.add_assoc]
    refine (Decl.simulates bound hpool decl (Pool.addAll_prefix_left hconstants) hfirst h).bind
      fun _ s' m' hm' => ?_
    exact Decl.simulatesAll bound hpool decls (Pool.addAll_prefix_right hconstants) hrest hm'

end

end Statements

end Lox
