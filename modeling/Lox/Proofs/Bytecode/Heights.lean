import Lox.Compilation.Translation
import Lox.Proofs.Bytecode.Reading

/-!
# Heights of structured code

Code in which all control flow has the shapes of `ifTruthy`, `ifFalsey`, `choice` and `repeating`
has an assignment of heights, put together from those of its parts. Code is *balanced* between two
heights if it can be given heights so that it may be entered with the first and be left, at its end
only, with the second.

## Main definitions

* `Instruction.Sound`: an instruction can be executed at a height.
* `Marked`: code with the height before each instruction.
* `Balanced`: code can be given heights that start and end as said.

## Main results

* `Balanced.append`, `Balanced.ifTruthy`, `Balanced.ifFalsey`, `Balanced.choice`,
  `Balanced.repeating`: code is balanced if its parts are.
* `Balanced.verified`: balanced code before a halt is verified.
-/

namespace Lox

/-- The instruction is no halt, its operand names what is there, and the stack is high enough. -/
structure Instruction.Sound (pool : Pool) (height : Nat) (i : Instruction) : Prop where
  op : i.op ≠ .halt
  takes : i.op.takes ≤ height
  none : i.op.operand = .none → i.operand = 0
  constant : i.op.operand = .constant → i.operand < pool.length
  name : i.op.isGlobal → ∃ text, pool[i.operand]? = some (.text text)
  slot : i.op.operand = .slot → i.operand < height ∧ i.operand < 256

theorem OpCode.operand_of_isGlobal {op : OpCode} (h : op.isGlobal) : op.operand = .constant := by
  cases op <;> first | rfl | cases h

namespace Instruction

variable {pool : Pool} {height operand : Nat} {op : OpCode}

/-- An instruction without an operand only has to find its values. -/
theorem sound_plain (hkind : op.operand = .none) (hop : op ≠ .halt) (htakes : op.takes ≤ height) :
    Sound pool height ⟨op, 0⟩ where
  op := hop
  takes := htakes
  none _ := rfl
  constant hconstant := absurd (hkind.symm.trans hconstant) nofun
  name hname := absurd (hkind.symm.trans (OpCode.operand_of_isGlobal hname)) nofun
  slot hslot := absurd (hkind.symm.trans hslot) nofun

/-- So does a jump. -/
theorem sound_jump (hkind : op.operand.size = 2) (htakes : op.takes ≤ height) :
    Sound pool height ⟨op, operand⟩ where
  op := by
    rintro rfl
    exact absurd hkind (by decide)
  takes := htakes
  none hnone := absurd ((congrArg _ hnone).symm.trans hkind) (by decide)
  constant hconstant := absurd ((congrArg _ hconstant).symm.trans hkind) (by decide)
  name hname := absurd ((congrArg _ (OpCode.operand_of_isGlobal hname)).symm.trans hkind) (by decide)
  slot hslot := absurd ((congrArg _ hslot).symm.trans hkind) (by decide)

end Instruction

/-- Code with the height before each instruction. -/
abbrev Marked := List (Nat × Instruction)

namespace Marked

/-- The code without the heights. -/
def code (a : Marked) : List Instruction := a.map Prod.snd

/-- The number of bytes of the code. -/
def size (a : Marked) : Nat := codeSize a.code

/-- The offset of each instruction of code that starts at an offset, with the height there. -/
def places : Nat → Marked → List (Nat × Nat)
  | _, [] => []
  | offset, (height, i) :: a => (offset, height) :: places (offset + i.size) a

/-- Every instruction is sound and leads where the height is as expected. -/
def Lies (pool : Pool) (expected : Nat → Nat → Prop) : Nat → Marked → Prop
  | _, [] => True
  | offset, (height, i) :: a =>
    (i.Sound pool height ∧ (i.op = .loop → i.operand ≤ offset + i.size) ∧
      ∀ t ∈ i.targets offset, expected t (i.op.heightAfter height)) ∧
    Lies pool expected (offset + i.size) a

/-- What is expected at the places of the code are its heights, and at its end a given one. -/
def Covers (expected : Nat → Nat → Prop) (offset last : Nat) (a : Marked) : Prop :=
  (∀ p ∈ places offset a, expected p.1 p.2) ∧ expected (offset + a.size) last

section Pieces

variable {pool : Pool} {expected : Nat → Nat → Prop} {offset last height : Nat} {i : Instruction}
  {a a' : Marked}

@[simp] theorem code_nil : code [] = [] := rfl

@[simp] theorem code_cons : code ((height, i) :: a) = i :: a.code := rfl

@[simp] theorem code_append : code (a ++ a') = a.code ++ a'.code := List.map_append

@[simp] theorem size_nil : size [] = 0 := rfl

@[simp] theorem size_cons : size ((height, i) :: a) = i.size + a.size := codeSize_cons ..

@[simp] theorem size_append : size (a ++ a') = a.size + a'.size := by simp [size]

theorem places_append : places offset (a ++ a') = places offset a ++ places (offset + a.size) a' := by
  induction a generalizing offset with
  | nil => rfl
  | cons x a ih =>
    obtain ⟨height, i⟩ := x
    rw [List.cons_append, places, places, ih, size_cons, Nat.add_assoc]
    rfl

theorem lies_append : Lies pool expected offset (a ++ a') ↔
    Lies pool expected offset a ∧ Lies pool expected (offset + a.size) a' := by
  induction a generalizing offset with
  | nil => exact (and_iff_right trivial).symm
  | cons x a ih =>
    obtain ⟨height, i⟩ := x
    rw [List.cons_append, Lies, Lies, ih, size_cons, ← Nat.add_assoc]
    exact and_assoc.symm

@[simp] theorem covers_nil : Covers expected offset last [] ↔ expected offset last :=
  and_iff_right nofun

theorem covers_cons : Covers expected offset last ((height, i) :: a) ↔
    expected offset height ∧ Covers expected (offset + i.size) last a := by
  rw [Covers, Covers, places, List.forall_mem_cons, size_cons, Nat.add_assoc, and_assoc]

theorem covers_append : Covers expected offset last (a ++ a') ↔
    (∀ p ∈ places offset a, expected p.1 p.2) ∧ Covers expected (offset + a.size) last a' := by
  rw [Covers, Covers, places_append, List.forall_mem_append, size_append, Nat.add_assoc, and_assoc]

/-! ### Jumps -/

theorem lies_pop (hnext : expected (offset + 1) height) (h : Lies pool expected (offset + 1) a) :
    Lies pool expected offset ((height + 1, ⟨.pop, 0⟩) :: a) := by
  refine ⟨⟨Instruction.sound_plain rfl nofun (Nat.le_add_left 1 height), nofun, ?_⟩, h⟩
  intro t ht
  rw [List.mem_singleton.mp ht]
  exact hnext

theorem lies_jump {distance : Nat} (htarget : expected (offset + 3 + distance) height)
    (h : Lies pool expected (offset + 3) a) :
    Lies pool expected offset ((height, ⟨.jump, distance⟩) :: a) := by
  refine ⟨⟨Instruction.sound_jump rfl (Nat.zero_le _), nofun, ?_⟩, h⟩
  intro t ht
  rw [List.mem_singleton.mp ht]
  exact htarget

theorem lies_jumpIfFalse {distance : Nat} (hnext : expected (offset + 3) (height + 1))
    (htarget : expected (offset + 3 + distance) (height + 1))
    (h : Lies pool expected (offset + 3) a) :
    Lies pool expected offset ((height + 1, ⟨.jumpIfFalse, distance⟩) :: a) := by
  refine ⟨⟨Instruction.sound_jump rfl (Nat.le_add_left 1 height), nofun, ?_⟩, h⟩
  intro t ht
  rcases List.mem_cons.mp ht with rfl | ht
  · exact hnext
  · rw [List.mem_singleton.mp ht]
    exact htarget

theorem lies_loop {distance : Nat} (hback : distance ≤ offset + 3)
    (htarget : expected (offset + 3 - distance) height) (h : Lies pool expected (offset + 3) a) :
    Lies pool expected offset ((height, ⟨.loop, distance⟩) :: a) := by
  refine ⟨⟨Instruction.sound_jump rfl (Nat.zero_le _), fun _ => hback, ?_⟩, h⟩
  intro t ht
  rw [List.mem_singleton.mp ht]
  exact htarget

end Pieces

end Marked

/-- The code can be given heights, of which the first is `first` and that at its end is `last`. Where
it stands in a larger piece of code does not matter, as long as the heights expected there are those
of the code and that at its end. -/
def Balanced (pool : Pool) (first last : Nat) (code : List Instruction) : Prop :=
  ∃ a : Marked, a.code = code ∧ ∀ expected offset, a.Covers expected offset last →
    expected offset first ∧ a.Lies pool expected offset

namespace Balanced

variable {pool : Pool} {first middle last height : Nat} {code code' yes no : List Instruction}

/-! ### Straight code -/

theorem nil : Balanced pool height height [] :=
  ⟨[], rfl, fun _ _ hcovers => ⟨Marked.covers_nil.mp hcovers, trivial⟩⟩

/-- An instruction that is no jump. -/
theorem single {i : Instruction} (hsound : i.Sound pool height) (hjump : i.isJump = false) :
    Balanced pool height (i.op.heightAfter height) [i] := by
  refine ⟨[(height, i)], rfl, fun expected offset hcovers => ?_⟩
  rw [Marked.covers_cons, Marked.covers_nil] at hcovers
  have htargets : i.targets offset = [offset + i.size] := by
    obtain ⟨op, operand⟩ := i
    cases op <;> first | rfl | exact absurd rfl hsound.op | cases hjump
  refine ⟨hcovers.1, ⟨hsound, ?_, ?_⟩, trivial⟩
  · intro hloop
    rw [Instruction.isJump, hloop] at hjump
    exact absurd hjump nofun
  · rw [htargets]
    intro t ht
    rw [List.mem_singleton.mp ht]
    exact hcovers.2

theorem append (h : Balanced pool first middle code) (h' : Balanced pool middle last code') :
    Balanced pool first last (code ++ code') := by
  obtain ⟨a, rfl, ha⟩ := h
  obtain ⟨a', rfl, ha'⟩ := h'
  refine ⟨a ++ a', Marked.code_append, fun expected offset hcovers => ?_⟩
  obtain ⟨hplaces, hrest⟩ := Marked.covers_append.mp hcovers
  obtain ⟨hmiddle, hlies'⟩ := ha' _ _ hrest
  obtain ⟨hfirst, hlies⟩ := ha _ _ ⟨hplaces, hmiddle⟩
  exact ⟨hfirst, Marked.lies_append.mpr ⟨hlies, hlies'⟩⟩

theorem cons {i : Instruction} (hsound : i.Sound pool height) (hjump : i.isJump = false)
    (h : Balanced pool (i.op.heightAfter height) last code) :
    Balanced pool height last (i :: code) := (single hsound hjump).append h

/-! ### Control flow -/

theorem ifTruthy (h : Balanced pool height (height + 1) code) :
    Balanced pool (height + 1) (height + 1) (ifTruthy code) := by
  obtain ⟨a, rfl, ha⟩ := h
  refine ⟨(height + 1, ⟨.jumpIfFalse, 1 + a.size⟩) :: (height + 1, ⟨.pop, 0⟩) :: a, rfl,
    fun expected offset hcovers => ?_⟩
  obtain ⟨hfirst, hcovers⟩ := Marked.covers_cons.mp hcovers
  obtain ⟨hpop, hcovers⟩ := Marked.covers_cons.mp hcovers
  obtain ⟨hentry, hlies⟩ := ha _ _ hcovers
  have hend : expected (offset + 3 + (1 + a.size)) (height + 1) := by
    rw [← Nat.add_assoc]
    exact hcovers.2
  exact ⟨hfirst, Marked.lies_jumpIfFalse hpop hend (Marked.lies_pop hentry hlies)⟩

theorem ifFalsey (h : Balanced pool height (height + 1) code) :
    Balanced pool (height + 1) (height + 1) (ifFalsey code) := by
  obtain ⟨a, rfl, ha⟩ := h
  refine ⟨(height + 1, ⟨.jumpIfFalse, 3⟩) :: (height + 1, ⟨.jump, 1 + a.size⟩) ::
    (height + 1, ⟨.pop, 0⟩) :: a, rfl, fun expected offset hcovers => ?_⟩
  obtain ⟨hfirst, hcovers⟩ := Marked.covers_cons.mp hcovers
  obtain ⟨hjump, hcovers⟩ := Marked.covers_cons.mp hcovers
  obtain ⟨hpop, hcovers⟩ := Marked.covers_cons.mp hcovers
  obtain ⟨hentry, hlies⟩ := ha _ _ hcovers
  have hend : expected (offset + 3 + 3 + (1 + a.size)) (height + 1) := by
    rw [← Nat.add_assoc]
    exact hcovers.2
  exact ⟨hfirst, Marked.lies_jumpIfFalse hjump hpop
    (Marked.lies_jump hend (Marked.lies_pop hentry hlies))⟩

theorem choice (hyes : Balanced pool height last yes) (hno : Balanced pool height last no) :
    Balanced pool (height + 1) last (choice yes no) := by
  obtain ⟨a, rfl, ha⟩ := hyes
  obtain ⟨b, rfl, hb⟩ := hno
  refine ⟨(height + 1, ⟨.jumpIfFalse, 1 + a.size + 3⟩) :: (height + 1, ⟨.pop, 0⟩) :: (a ++
    (last, ⟨.jump, 1 + b.size⟩) :: (height + 1, ⟨.pop, 0⟩) :: b), ?_, fun expected offset hcovers => ?_⟩
  · simp [Lox.choice, Marked.size]
  obtain ⟨hfirst, hcovers⟩ := Marked.covers_cons.mp hcovers
  obtain ⟨hpop, hcovers⟩ := Marked.covers_cons.mp hcovers
  obtain ⟨hplaces, hcovers⟩ := Marked.covers_append.mp hcovers
  obtain ⟨hjump, hcovers⟩ := Marked.covers_cons.mp hcovers
  obtain ⟨hother, hcovers⟩ := Marked.covers_cons.mp hcovers
  obtain ⟨hentry', hlies'⟩ := hb _ _ hcovers
  obtain ⟨hentry, hlies⟩ := ha _ _ ⟨hplaces, hjump⟩
  have htarget : expected (offset + 3 + (1 + a.size + 3)) (height + 1) := by
    rw [← Nat.add_assoc, ← Nat.add_assoc]
    exact hother
  have hend : expected (offset + 3 + 1 + a.size + 3 + (1 + b.size)) last := by
    rw [← Nat.add_assoc]
    exact hcovers.2
  refine ⟨hfirst, Marked.lies_jumpIfFalse hpop htarget (Marked.lies_pop hentry ?_)⟩
  exact Marked.lies_append.mpr
    ⟨hlies, Marked.lies_jump hend (Marked.lies_pop hentry' hlies')⟩

/-- The start of a loop. Its jump leads to `beyond` bytes after it. -/
theorem exists_loopHead {condition : Option (List Instruction)}
    (h : ∀ code ∈ condition, Balanced pool height (height + 1) code) (beyond : Nat) :
    ∃ a : Marked, a.code = loopHead (1 + beyond) condition ∧ a.size = loopHeadSize condition ∧
      ∀ expected offset, a.Covers expected offset height →
        (condition.isSome → expected (offset + a.size + beyond) (height + 1)) →
        expected offset height ∧ a.Lies pool expected offset := by
  cases condition with
  | none =>
    exact ⟨[], rfl, rfl, fun expected offset hcovers _ => ⟨Marked.covers_nil.mp hcovers, trivial⟩⟩
  | some code =>
    obtain ⟨a, rfl, ha⟩ := h code rfl
    refine ⟨a ++ [(height + 1, ⟨.jumpIfFalse, 1 + beyond⟩), (height + 1, ⟨.pop, 0⟩)], by simp [loopHead],
      by simp [loopHeadSize, Marked.size]; rfl, fun expected offset hcovers hexit => ?_⟩
    obtain ⟨hplaces, hcovers⟩ := Marked.covers_append.mp hcovers
    obtain ⟨hjump, hcovers⟩ := Marked.covers_cons.mp hcovers
    obtain ⟨hpop, hend⟩ := Marked.covers_cons.mp hcovers
    obtain ⟨hentry, hlies⟩ := ha _ _ ⟨hplaces, hjump⟩
    have htarget : expected (offset + a.size + 3 + (1 + beyond)) (height + 1) := by
      have hexit' := hexit rfl
      rw [Marked.size_append, ← Nat.add_assoc] at hexit'
      rwa [← Nat.add_assoc]
    refine ⟨hentry, Marked.lies_append.mpr ⟨hlies, Marked.lies_jumpIfFalse hpop htarget ?_⟩⟩
    exact Marked.lies_pop (Marked.covers_nil.mp hend) trivial

/-- What stands between the start of a loop and its body. -/
theorem exists_loopStep {increment : Option (List Instruction)}
    (h : ∀ code ∈ increment, Balanced pool height (height + 1) code) (head : Nat) :
    ∃ a : Marked, a.code = loopStep head increment ∧
      ∀ expected offset, a.Covers expected offset height → expected offset height ∧
        (head ≤ offset → expected (offset - head) height →
          loopBack head increment ≤ offset + a.size ∧
            expected (offset + a.size - loopBack head increment) height ∧
            a.Lies pool expected offset) := by
  cases increment with
  | none =>
    refine ⟨[], rfl, fun expected offset hcovers => ⟨Marked.covers_nil.mp hcovers, ?_⟩⟩
    exact fun hhead hback => ⟨hhead, hback, trivial⟩
  | some code =>
    obtain ⟨a, rfl, ha⟩ := h code rfl
    refine ⟨(height, ⟨.jump, a.size + 4⟩) :: (a ++ [(height + 1, ⟨.pop, 0⟩),
      (height, ⟨.loop, head + a.size + 7⟩)]), by simp [loopStep, Marked.size],
      fun expected offset hcovers => ?_⟩
    have hsize : offset + Marked.size ((height, ⟨.jump, a.size + 4⟩) :: (a ++
        [(height + 1, ⟨.pop, 0⟩), (height, ⟨.loop, head + a.size + 7⟩)])) =
        offset + 3 + (a.size + 4) := by
      simp only [Marked.size_cons, Marked.size_append, Marked.size_nil, ← Nat.add_assoc]
      rfl
    have hend := hcovers.2
    rw [hsize] at hend ⊢
    obtain ⟨hfirst, hcovers⟩ := Marked.covers_cons.mp hcovers
    obtain ⟨hplaces, hcovers⟩ := Marked.covers_append.mp hcovers
    obtain ⟨hpop, hcovers⟩ := Marked.covers_cons.mp hcovers
    obtain ⟨hloop, -⟩ := Marked.covers_cons.mp hcovers
    obtain ⟨hentry, hlies⟩ := ha _ _ ⟨hplaces, hpop⟩
    refine ⟨hfirst, fun hhead hback => ⟨?_, ?_, ?_⟩⟩
    · exact Nat.le_add_left _ _
    · rw [loopBack, ← Marked.size, Nat.add_sub_cancel]
      exact hentry
    · refine Marked.lies_jump hend (Marked.lies_append.mpr ⟨hlies, Marked.lies_pop hloop ?_⟩)
      refine Marked.lies_loop ?_ ?_ trivial
      · show _ ≤ offset + 3 + a.size + 1 + 3
        omega
      · have htarget : offset + 3 + a.size + 1 + 3 - (head + a.size + 7) = offset - head := by omega
        show expected (offset + 3 + a.size + 1 + 3 - (head + a.size + 7)) height
        rw [htarget]
        exact hback

theorem repeating {condition increment : Option (List Instruction)}
    (hcondition : ∀ code ∈ condition, Balanced pool height (height + 1) code)
    (hincrement : ∀ code ∈ increment, Balanced pool height (height + 1) code)
    (hbody : Balanced pool height height code) :
    Balanced pool height height (repeating condition increment code) := by
  obtain ⟨s, hs, hstep⟩ := exists_loopStep hincrement (loopHeadSize condition)
  obtain ⟨b, rfl, hb⟩ := hbody
  obtain ⟨a, ha, hsize, hhead⟩ := exists_loopHead hcondition (s.size + b.size + 3)
  have hexit : ∃ x : Marked, x.code = loopExit condition ∧ ∀ expected offset,
      x.Covers expected offset height → x.Lies pool expected offset ∧
        (condition.isSome → expected offset (height + 1)) := by
    cases condition with
    | none =>
      exact ⟨[], rfl, fun _ _ _ => ⟨trivial, nofun⟩⟩
    | some condition =>
      refine ⟨[(height + 1, ⟨.pop, 0⟩)], rfl, fun expected offset hcovers => ?_⟩
      obtain ⟨hpop, hend⟩ := Marked.covers_cons.mp hcovers
      exact ⟨Marked.lies_pop (Marked.covers_nil.mp hend) trivial, fun _ => hpop⟩
  obtain ⟨x, hx, hexit⟩ := hexit
  refine ⟨a ++ (s ++ (b ++ (height, ⟨.loop, loopBack (loopHeadSize condition) increment + b.size + 3⟩) ::
    x)), ?_, fun expected offset hcovers => ?_⟩
  · simp [Lox.repeating, ha, hs, hx, Marked.size, Nat.add_assoc]
  obtain ⟨hplacesA, hcovers⟩ := Marked.covers_append.mp hcovers
  obtain ⟨hplacesS, hcovers⟩ := Marked.covers_append.mp hcovers
  obtain ⟨hplacesB, hcovers⟩ := Marked.covers_append.mp hcovers
  obtain ⟨hloop, hcovers⟩ := Marked.covers_cons.mp hcovers
  obtain ⟨hliesX, hbeyond⟩ := hexit _ _ hcovers
  obtain ⟨hentryB, hliesB⟩ := hb _ _ ⟨hplacesB, hloop⟩
  obtain ⟨hentryS, hstep⟩ := hstep _ _ ⟨hplacesS, hentryB⟩
  obtain ⟨hentry, hliesA⟩ := hhead expected offset ⟨hplacesA, hentryS⟩ fun hsome => by
    rw [← Nat.add_assoc, ← Nat.add_assoc]
    exact hbeyond hsome
  obtain ⟨hle, hback, hliesS⟩ := hstep (by omega) (by rwa [hsize, Nat.add_sub_cancel])
  refine ⟨hentry, Marked.lies_append.mpr ⟨hliesA, Marked.lies_append.mpr ⟨hliesS,
    Marked.lies_append.mpr ⟨hliesB, Marked.lies_loop ?_ ?_ hliesX⟩⟩⟩⟩
  · omega
  · have htarget : offset + a.size + s.size + b.size + 3 -
        (loopBack (loopHeadSize condition) increment + b.size + 3) =
        offset + a.size + s.size - loopBack (loopHeadSize condition) increment := by omega
    rw [htarget]
    exact hback

end Balanced

/-! ### Verified code -/

namespace Marked

variable {pool : Pool} {expected : Nat → Nat → Prop} {offset : Nat} {a : Marked}

/-- The height assigned to an offset. -/
def heightAt (a : Marked) (offset : Nat) : Nat := ((places 0 a).lookup offset).getD 0

theorem le_of_mem_places {p : Nat × Nat} (h : p ∈ places offset a) : offset ≤ p.1 := by
  induction a generalizing offset with
  | nil => exact absurd h List.not_mem_nil
  | cons x a ih =>
    rcases List.mem_cons.mp h with rfl | hmem
    · exact Nat.le_refl _
    · exact Nat.le_trans (Nat.le_add_right _ _) (ih hmem)

/-- Different places have different offsets. -/
theorem lookup_places {p : Nat × Nat} (h : p ∈ places offset a) :
    (places offset a).lookup p.1 = some p.2 := by
  induction a generalizing offset with
  | nil => exact absurd h List.not_mem_nil
  | cons x a ih =>
    obtain ⟨height, i⟩ := x
    rw [places] at h ⊢
    rcases List.mem_cons.mp h with rfl | hmem
    · simp
    · have hle := le_of_mem_places hmem
      have hpos : 0 < i.size := Nat.lt_of_lt_of_le Nat.zero_lt_one (Nat.le_add_right 1 _)
      have hne : (p.1 == offset) = false := beq_eq_false_iff_ne.mpr (by omega)
      rw [List.lookup_cons, hne]
      exact ih hmem

theorem heightAt_eq {height : Nat} (h : (offset, height) ∈ places 0 a) :
    a.heightAt offset = height := by
  rw [heightAt, lookup_places h, Option.getD_some]

theorem exists_of_mem_places {p : Nat × Nat} (h : p ∈ places offset a) :
    ∃ i, (p.1, i) ∈ withOffsets offset a.code := by
  induction a generalizing offset with
  | nil => exact absurd h List.not_mem_nil
  | cons x a ih =>
    rcases List.mem_cons.mp h with rfl | hmem
    · exact ⟨x.2, List.mem_cons_self⟩
    · obtain ⟨i, hi⟩ := ih hmem
      exact ⟨i, List.mem_cons_of_mem _ hi⟩

/-- What is known of each instruction. -/
theorem Lies.exists_of_mem (h : Lies pool expected offset a) {x : Nat × Instruction}
    (hx : x ∈ withOffsets offset a.code) : ∃ height, (x.1, height) ∈ places offset a ∧
      x.2.Sound pool height ∧ (x.2.op = .loop → x.2.operand ≤ x.1 + x.2.size) ∧
      ∀ t ∈ x.2.targets x.1, expected t (x.2.op.heightAfter height) := by
  induction a generalizing offset with
  | nil => exact absurd hx List.not_mem_nil
  | cons y a ih =>
    obtain ⟨height, i⟩ := y
    rcases List.mem_cons.mp hx with rfl | hmem
    · exact ⟨height, List.mem_cons_self, h.1⟩
    · obtain ⟨height', hplace, hrest⟩ := ih h.2 hmem
      exact ⟨height', List.mem_cons_of_mem _ hplace, hrest⟩

end Marked

theorem exists_mem_withOffsets {code : List Instruction} {i : Instruction} (h : i ∈ code)
    (offset : Nat) : ∃ start, (start, i) ∈ withOffsets offset code := by
  induction code generalizing offset with
  | nil => exact absurd h List.not_mem_nil
  | cons j code ih =>
    rcases List.mem_cons.mp h with rfl | hmem
    · exact ⟨offset, List.mem_cons_self⟩
    · obtain ⟨start, hstart⟩ := ih hmem (offset + j.size)
      exact ⟨start, List.mem_cons_of_mem _ hstart⟩

/-- A sound instruction fits into its bytes, if constants and jumps do. -/
theorem Instruction.Sound.encodable {pool : Pool} {height : Nat} {i : Instruction}
    (h : i.Sound pool height) (hpool : pool.length ≤ 256) (hjump : i.isJump → i.operand ≤ 65535) :
    i.Encodable := by
  rw [Encodable]
  cases hkind : i.op.operand with
  | none => exact h.none hkind
  | constant => exact Nat.lt_of_lt_of_le (h.constant hkind) hpool
  | slot => exact (h.slot hkind).2
  | forward | backward => exact hjump (by rw [isJump, hkind]; rfl)

/-- Balanced code fits into its bytes, if constants and jumps do. -/
theorem Balanced.encodable {pool : Pool} {first last : Nat} {code : List Instruction}
    (h : Balanced pool first last code) (hpool : pool.length ≤ 256) (hjumps : JumpsFit code) :
    ∀ i ∈ code, i.Encodable := by
  obtain ⟨a, rfl, ha⟩ := h
  obtain ⟨-, hlies⟩ := ha (fun _ _ => True) 0 ⟨fun _ _ => trivial, trivial⟩
  intro i hi
  obtain ⟨start, hstart⟩ := exists_mem_withOffsets hi 0
  obtain ⟨height, -, hsound, -⟩ := hlies.exists_of_mem hstart
  exact hsound.encodable hpool (hjumps i hi)

/-- What is read in a chunk whose bytes are those of balanced code before a halt. -/
theorem Balanced.reads {pool : Pool} {code : List Instruction} (h : Balanced pool 0 0 code)
    (hpool : pool.length ≤ 256) (hjumps : JumpsFit code) {c : Chunk}
    (hcode : c.code.toList = codeBytes (code ++ [⟨.halt, 0⟩])) :
    c.Reads 0 (withOffsets 0 (code ++ [⟨.halt, 0⟩])) := by
  refine Chunk.reads_codeBytes (fun i hi => ?_) (show _ = [] ++ _ from hcode)
  rcases List.mem_append.mp hi with hmem | hmem
  · exact h.encodable hpool hjumps i hmem
  · rw [List.mem_singleton.mp hmem]
    exact rfl

/-- **Balanced code before a halt is verified**, if everything fits into its bytes and the constants
are there. -/
theorem Balanced.verified {pool : Pool} {code : List Instruction} (h : Balanced pool 0 0 code)
    (hpool : pool.length ≤ 256) (hjumps : JumpsFit code) {c : Chunk}
    (hcode : c.code.toList = codeBytes (code ++ [⟨.halt, 0⟩]))
    (hconstants : pool.length ≤ c.constants.size)
    (hnames : ∀ (k : Nat) (text : String), pool[k]? = some (.text text) →
      ∃ symbol, c.constants[k]? = some (.string symbol)) : c.Verified := by
  have hreads := h.reads hpool hjumps hcode
  obtain ⟨a, rfl, ha⟩ := h
  let w : Marked := a ++ [(0, ⟨.halt, 0⟩)]
  have hw : w.code = a.code ++ [⟨.halt, 0⟩] := Marked.code_append
  have hplaces : Marked.places 0 w = Marked.places 0 a ++ [(0 + a.size, 0)] := Marked.places_append
  have hlast : (0 + a.size, 0) ∈ Marked.places 0 w :=
    hplaces ▸ List.mem_append_right _ (List.mem_singleton_self _)
  obtain ⟨hstart, hlies⟩ := ha (fun t k => (t, k) ∈ Marked.places 0 w) 0
    ⟨fun p hp => hplaces ▸ List.mem_append_left _ hp, hlast⟩
  have hoffsets : withOffsets 0 w.code = withOffsets 0 a.code ++ [(0 + a.size, ⟨.halt, 0⟩)] := by
    rw [hw, withOffsets_append]
    rfl
  refine ⟨withOffsets 0 a.code, 0 + a.size, w.heightAt, ?_, ?_, Marked.heightAt_eq hstart, ?_⟩
  · rw [← hoffsets, hw]
    exact hreads
  · intro x hx
    obtain ⟨height, -, hsound, -⟩ := hlies.exists_of_mem hx
    exact hsound.op
  · rw [← hoffsets]
    intro x hx
    rw [hoffsets] at hx
    rcases List.mem_append.mp hx with hmem | hmem
    · obtain ⟨height, hplace, hsound, hback, htarget⟩ := hlies.exists_of_mem hmem
      have hheight : w.heightAt x.1 = height :=
        Marked.heightAt_eq (hplaces ▸ List.mem_append_left _ hplace)
      refine ⟨fun hkind => Nat.lt_of_lt_of_le (hsound.constant hkind) hconstants, fun hname => ?_, fun hslot => ?_,
        ?_, hback, fun t ht => ?_, fun hhalt => absurd hhalt hsound.op⟩
      · obtain ⟨text, htext⟩ := hsound.name hname
        exact hnames _ _ htext
      · rw [hheight]
        exact (hsound.slot hslot).1
      · rw [hheight]
        exact hsound.takes
      · rw [hheight]
        exact ⟨Marked.exists_of_mem_places (htarget t ht), Marked.heightAt_eq (htarget t ht)⟩
    · obtain rfl := List.mem_singleton.mp hmem
      exact ⟨nofun, nofun, nofun, Nat.zero_le _, nofun, nofun, fun _ => Marked.heightAt_eq hlast⟩

end Lox
