import Lox.Proofs.Session.Compilation
import Lox.Proofs.Worlds

/-!
# What runs intern

While a machine runs, in a world in order, a chunk whose constants belong to the interner of the
world, all that it holds belongs to that interner: whatever bytes the code is made of, the values on
the stack come from the constants and the globals, or are made by the machine. The interner grows by
the concatenations alone.

## Main definitions

* `Value.Belongs`, `Chunk.Belongs`, `Machine.Belongs`: what is of the making of an interner.

## Main results

* `Machine.Belongs.step`: one instruction, and what it interns.
* `Machine.Belongs.trace`: a number of instructions, and what they intern.
* `Machine.world_trace_of_run`: a run that ends leaves the world that its instructions leave.
* `Machine.step_equal`: what a program sees when it compares two strings.
-/

namespace Lox

/-- The value is of the making of an interner: if it is a string, its symbol stands for a text. -/
def Value.Belongs (i : Interner) (v : Value) : Prop := ∃ x, v.Denotes i x

/-- The constants of the chunk belong to an interner. -/
def Chunk.Belongs (i : Interner) (c : Chunk) : Prop := ∀ v ∈ c.constants, v.Belongs i

/-- What the machine holds belongs to its interner. -/
structure Machine.Belongs (m : Machine) : Prop where
  world : m.world.WellFormed
  stack : ∀ v ∈ m.stack, v.Belongs m.world.interner

theorem Value.Belongs.mono {i j : Interner} {v : Value} (hij : i.Grows j) (h : v.Belongs i) :
    v.Belongs j := h.imp fun _ => .mono hij

theorem Chunk.Belongs.mono {i j : Interner} {c : Chunk} (hij : i.Grows j) (h : c.Belongs i) :
    c.Belongs j := fun v hv => (h v hv).mono hij

/-- A string belongs to an interner if its symbol has been issued. -/
theorem Value.Belongs.exists_find? {i : Interner} {symbol : Symbol}
    (h : Value.Belongs i (.string symbol)) : ∃ text, i.find? text = some symbol := by
  obtain ⟨_, hx⟩ := h
  cases hx with
  | text hfind => exact ⟨_, hfind⟩

namespace Machine

variable {c : Chunk} {m next : Machine} {v : Value} {P : Machine → Prop}

/-! ### The stack -/

theorem belongs_start {w : World} (h : w.WellFormed) : (start w).Belongs where
  world := h
  stack v hv := absurd hv (Array.not_mem_empty v)

theorem Belongs.moved (h : m.Belongs) (offset : Nat) : Belongs { m with offset } :=
  ⟨h.world, h.stack⟩

theorem Belongs.push (h : m.Belongs) (hv : v.Belongs m.world.interner) : (m.push v).Belongs where
  world := h.world
  stack w hw := by
    rcases Array.mem_push.mp hw with hmem | rfl
    · exact h.stack w hmem
    · exact hv

theorem Belongs.popped (h : m.Belongs) : Belongs { m with stack := m.stack.pop } where
  world := h.world
  stack v hv := h.stack v (by
    rw [← Array.mem_toList_iff] at hv ⊢
    rw [Array.toList_pop] at hv
    exact List.mem_of_mem_dropLast hv)

theorem Belongs.back? (h : m.Belongs) (hback : m.stack.back? = some v) :
    v.Belongs m.world.interner := h.stack v (Array.mem_of_back? hback)

/-! ### Instructions -/

/-- An execution that leads to a machine leads to one as expected. -/
def Yields (P : Machine → Prop) : Except RuntimeError Machine → Prop
  | .ok next => P next
  | .error _ => True

theorem yields_pop {f : Value × Machine → Except RuntimeError Machine} (h : m.Belongs)
    (hf : ∀ v, m.stack.back? = some v → v.Belongs m.world.interner →
      Yields P (f (v, { m with stack := m.stack.pop }))) : Yields P (m.pop >>= f) := by
  rw [pop]
  cases hback : m.stack.back? with
  | none => trivial
  | some v => exact hf v hback (h.back? hback)

theorem yields_peek {f : Value → Except RuntimeError Machine} (h : m.Belongs)
    (hf : ∀ v, v.Belongs m.world.interner → Yields P (f v)) : Yields P (m.peek >>= f) := by
  rw [peek]
  cases hback : m.stack.back? with
  | none => trivial
  | some v => exact hf v (h.back? hback)

theorem yields_constant {f : Value → Except RuntimeError Machine} {i : Interner} {index : Nat}
    (hc : c.Belongs i) (hf : ∀ v, v.Belongs i → Yields P (f v)) :
    Yields P (constant c index >>= f) := by
  rw [constant]
  cases hget : c.constants[index]? with
  | none => trivial
  | some v => exact hf v (hc v (Array.mem_of_getElem? hget))

theorem yields_globalName {f : Symbol → Except RuntimeError Machine} {i : Interner} {index : Nat}
    (hc : c.Belongs i) (hf : ∀ name text, i.find? text = some name → Yields P (f name)) :
    Yields P (globalName c index >>= f) := by
  rw [globalName, bind_assoc]
  refine yields_constant hc fun v hv => ?_
  cases v with
  | string name =>
    obtain ⟨text, htext⟩ := hv.exists_find?
    exact hf name text htext
  | _ => trivial

theorem yields_onNumbers {f : Float → Float → Value} (h : m.Belongs)
    (hP : ∀ x y, P (push { m with stack := m.stack.pop.pop } (f x y))) :
    Yields P (m.onNumbers f) := by
  refine yields_pop h fun b _ _ => yields_pop h.popped fun a _ _ => ?_
  cases a <;> cases b <;> first | exact hP _ _ | trivial

/-- The machine holds nothing foreign, and some texts have been interned on the way. -/
structure Keeps (i : Interner) (texts : List String) (next : Machine) : Prop where
  belongs : next.Belongs
  interner : next.world.interner = (i.internAll texts).2

theorem Belongs.keeps (h : next.Belongs) : Keeps next.world.interner [] next := ⟨h, rfl⟩

/-- **Adding** interns the concatenation of two strings, and nothing if the values are numbers. -/
theorem Belongs.add (h : m.Belongs) :
    Yields (Keeps m.world.interner m.concatenation?.toList) m.add := by
  refine yields_pop h fun b hb _ => yields_pop h.popped fun a ha _ => ?_
  have hrest := h.popped.popped
  cases a with
  | number x =>
    cases b with
    | number y =>
      have hnone : m.concatenation? = none := by rw [concatenation?, hb]
      rw [hnone]
      exact (hrest.push ⟨_, .number (x + y)⟩).keeps
    | _ => trivial
  | string x =>
    cases b with
    | string y =>
      have hsome : m.concatenation? =
          some (m.world.interner.text x ++ m.world.interner.text y) := by
        rw [concatenation?, hb, ha]
      rw [hsome]
      have hgrows := m.world.interner.grows_intern
        (m.world.interner.text x ++ m.world.interner.text y)
      refine ⟨⟨h.world.grow hgrows, fun v hv => ?_⟩, rfl⟩
      rcases Array.mem_push.mp hv with hmem | rfl
      · exact (hrest.stack v hmem).mono hgrows
      · exact ⟨_, .text (Interner.find?_intern ..)⟩
    | _ => trivial
  | _ => cases b <;> trivial

/-- **An instruction** other than the addition interns nothing. -/
theorem Belongs.execute (h : m.Belongs) (hc : c.Belongs m.world.interner) {op : OpCode}
    (hop : op ≠ .add) (operand distance : Nat) :
    Yields (Keeps m.world.interner []) (execute c m op operand distance) := by
  cases op with
  | constant => exact yields_constant hc fun v hv => (h.push hv).keeps
  | nil => exact (h.push ⟨_, .nil⟩).keeps
  | true => exact (h.push ⟨_, .bool true⟩).keeps
  | false => exact (h.push ⟨_, .bool false⟩).keeps
  | pop => exact yields_pop h fun v _ _ => h.popped.keeps
  | getLocal =>
    rw [Machine.execute]
    cases hget : m.stack[operand]? with
    | none => trivial
    | some v => exact (h.push (h.stack v (Array.mem_of_getElem? hget))).keeps
  | setLocal =>
    refine yields_peek h fun v hv => ?_
    show Yields _ (if operand < m.stack.size then _ else _)
    split
    · refine ⟨⟨h.world, fun w hw => ?_⟩, rfl⟩
      rcases Array.mem_or_eq_of_mem_setIfInBounds hw with hmem | rfl
      · exact h.stack w hmem
      · exact hv
    · trivial
  | getGlobal =>
    refine yields_globalName hc fun name _ _ => ?_
    cases hfind : m.world.globals.find? name with
    | none => trivial
    | some v => exact (h.push (h.world.entries name v hfind).2).keeps
  | defineGlobal =>
    refine yields_globalName hc fun name text hname => yields_pop h fun v _ hv => ?_
    obtain ⟨x, hx⟩ := hv
    exact ⟨⟨h.world.insert hname hx, h.popped.stack⟩, rfl⟩
  | setGlobal =>
    refine yields_globalName hc fun name text hname => yields_peek h fun v hv => ?_
    obtain ⟨x, hx⟩ := hv
    rcases h.world.replace hname hx with ⟨-, hnone⟩ | ⟨-, old, t, hsome, hworld, -⟩
    · rw [hnone]
      trivial
    · rw [hsome]
      exact ⟨⟨hworld, h.stack⟩, rfl⟩
  | equal => exact yields_pop h fun b _ _ => yields_pop h.popped fun a _ _ =>
      (h.popped.popped.push ⟨_, .bool _⟩).keeps
  | greater | less | subtract | multiply | divide =>
    exact yields_onNumbers h fun x y => (h.popped.popped.push ⟨_, by constructor⟩).keeps
  | add => exact absurd rfl hop
  | not => exact yields_pop h fun v _ _ => (h.popped.push ⟨_, .bool _⟩).keeps
  | negate =>
    refine yields_pop h fun v _ _ => ?_
    cases v with
    | number x => exact (h.popped.push ⟨_, .number _⟩).keeps
    | _ => trivial
  | print => exact yields_pop h fun v _ _ => ⟨⟨h.popped.world, h.popped.stack⟩, rfl⟩
  | jump => exact (h.moved (m.offset + distance)).keeps
  | jumpIfFalse =>
    refine yields_peek h fun v _ => ?_
    show Keeps _ _ (if v.isFalsey then { m with offset := m.offset + distance } else m)
    split
    · exact (h.moved (m.offset + distance)).keeps
    · exact h.keeps
  | loop =>
    rw [Machine.execute]
    split
    · exact (h.moved (m.offset - distance)).keeps
    · trivial
  | halt => exact h.keeps

/-- **One instruction** of any code keeps out what is foreign, and interns what it concatenates. -/
theorem Belongs.step (h : m.Belongs) (hc : c.Belongs m.world.interner)
    (hstep : m.step c = .running next) :
    Keeps m.world.interner (m.joined? c).toList next := by
  rw [Machine.step] at hstep
  rw [joined?]
  cases hbyte : c.code[m.offset]? with
  | none =>
    rw [hbyte] at hstep
    exact absurd hstep nofun
  | some byte =>
    rw [hbyte] at hstep
    rw [Option.bind_some]
    have hyields : ∀ {P : Machine → Prop} {r : Except RuntimeError Machine}, Yields P r →
        (match r with | .ok next => Progress.running next | .error e => .failed e) = .running next →
        P next := by
      rintro P (e | next') hP hrunning
      · exact absurd hrunning nofun
      · exact Progress.running.inj hrunning ▸ hP
    cases hop : OpCode.ofByte? byte with
    | none =>
      simp only [hop] at hstep
      exact absurd hstep nofun
    | some op =>
      by_cases hadd : op = .add
      · subst hadd
        simp only [hop] at hstep
        rw [if_pos rfl]
        exact hyields (h.moved (m.offset + OpCode.size .add)).add hstep
      · rw [if_neg fun heq => hadd (Option.some.inj heq)]
        by_cases hhalt : op = .halt
        · subst hhalt
          simp only [hop] at hstep
          split at hstep <;> exact absurd hstep nofun
        · simp only [hop] at hstep
          exact hyields ((h.moved (m.offset + op.size)).execute hc hadd _ _) hstep

/-- **Comparing two strings** on top of the stack tells whether their texts are equal. -/
theorem Belongs.step_equal (h : m.Belongs) {below : Array Value} {a b : Symbol}
    (hstack : m.stack = (below.push (.string a)).push (.string b))
    (hcode : c.code[m.offset]? = some OpCode.equal.toByte) :
    m.step c = .running { m with
      offset := m.offset + 1
      stack := below.push
        (.bool (decide (m.world.interner.text a = m.world.interner.text b))) } := by
  obtain ⟨x, hx⟩ := h.stack (.string a) (by simp [hstack])
  obtain ⟨y, hy⟩ := h.stack (.string b) (by simp [hstack])
  have hequal : Value.equals (.string a) (.string b) =
      decide (m.world.interner.text a = m.world.interner.text b) := by
    rw [hx.equals_eq hy, ← hx.datum_eq, ← hy.datum_eq]
    rfl
  have hexecute : ∀ offset operand distance,
      Machine.execute c { m with offset } .equal operand distance =
        .ok { m with offset, stack := below.push (.bool (Value.equals (.string a) (.string b))) } := by
    intro offset operand distance
    simp only [Machine.execute, Machine.pop, hstack, Array.back?_push, Array.pop_push, bind,
      Except.bind]
    rfl
  rw [Machine.step, hcode, ← hequal]
  simp only [OpCode.ofByte?_toByte, hexecute]
  rfl

/-! ### Runs -/

/-- **A number of instructions** of any code keep out what is foreign, and intern what they
concatenate. -/
theorem Belongs.trace (h : m.Belongs) (hc : c.Belongs m.world.interner) (bound : Nat) :
    Keeps m.world.interner (m.trace c bound).1 (m.trace c bound).2 := by
  induction bound generalizing m with
  | zero => exact h.keeps
  | succ bound ih =>
    rw [Machine.trace]
    cases hstep : m.step c with
    | running next =>
      have hnext := h.step hc hstep
      have hgrows := Interner.grows_internAll m.world.interner (m.joined? c).toList
      rw [← hnext.interner] at hgrows
      have hrest := ih hnext.belongs (hc.mono hgrows)
      refine ⟨hrest.belongs, ?_⟩
      rw [hrest.interner, hnext.interner, Interner.internAll_append]
    | finished => exact h.keeps
    | failed e => exact h.keeps

/-- A run that ends leaves the world as it is after as many instructions. -/
theorem world_trace_of_run {bound : Nat} {o : Outcome} (h : m.run c bound = some o) :
    (m.trace c bound).2.world = o.world := by
  induction bound generalizing m with
  | zero => exact absurd h nofun
  | succ bound ih =>
    rw [run] at h
    rw [Machine.trace]
    cases hstep : m.step c with
    | running next =>
      rw [hstep] at h
      exact ih h
    | finished =>
      rw [hstep] at h
      rw [← Option.some.inj h]
    | failed e =>
      rw [hstep] at h
      rw [← Option.some.inj h]

end Machine

end Lox
