import Lox.Proofs.Draft.Sketch
import Lox.Proofs.Grammar

/-!
# Compiling the tokens of an expression

Given the tokens that spell an expression, the compiler writes its code, or reports something if the
expression does not fit: if it nests too deeply, uses the name of the pending local, needs too many
constants or jumps too far.

The connectives of an expression are read in a loop, while the grammar has them in a tree that leans
to the left. `climb` says that, after the tokens of a left operand, the loop goes on as if it had
just read an operand.

## Main definitions

* `Fits`, `Expr.Fits`: a piece of source, an expression can be compiled at a place.
* `Draft.Compiles`: a function compiles all expressions that fit into a number of levels.

## Main results

* `Draft.compiles_expressionAt`: `expressionAt` does.
-/

namespace Lox

/-- A piece of source with such a height, such constants and such code can be compiled with a number
of levels left and after the constants of the pool, if its locals are in order. -/
@[mk_iff]
structure Fits (levels : Nat) (pool : Pool) (height : Nat) (locals : Prop) (constants : List Datum)
    (code : List Instruction) : Prop where
  nesting : height ≤ levels
  locals : locals
  constants : (pool.addAll constants).length ≤ Draft.maxConstants
  jumps : JumpsFit code

/-- The expression can be compiled inside the scopes and the initial value of the pending local. -/
def Expr.Fits (levels : Nat) (scopes : Scopes) (pending : Option String) (pool : Pool)
    (e : Expr) : Prop :=
  Lox.Fits levels pool e.height (∀ name, pending = some name → name ∉ e.names)
    (e.constants scopes) (e.code scopes pool)

namespace Expr

/-- The sketch after the tokens of an expression. -/
def after (s : Sketch) (e : Expr) (rest : List Token) : Sketch :=
  s.extend (e.constants s.scopes) (e.code s.scopes s.pool) rest

/-! ### When an expression fits -/

section Fits

variable {levels : Nat} {scopes : Scopes} {pending : Option String} {pool : Pool}

theorem height_pos (e : Expr) : 0 < e.height := by
  induction e with
  | literal | number | string | «variable» => exact Nat.one_pos
  | assign | group | unary => exact Nat.succ_pos _
  | binary op l r ihl | and l r ihl | or l r ihl => exact lt_max_of_lt_left ihl

theorem jumpsFit_ops (ops : List OpCode) : JumpsFit (ops.map (⟨·, 0⟩)) := by
  intro i hi _
  obtain ⟨op, -, rfl⟩ := List.mem_map.mp hi
  exact Nat.zero_le _

theorem isJump_nameInstruction (scopes : Scopes) (pool : Pool) (name : String) :
    (nameInstruction scopes pool name .getLocal .getGlobal).isJump = false ∧
      (nameInstruction scopes pool name .setLocal .setGlobal).isJump = false := by
  rw [nameInstruction, nameInstruction]
  cases slot? name scopes.names <;> exact ⟨rfl, rfl⟩

/-- An expression without parts, whose code has no jump. -/
theorem fits_leaf (e : Expr) (hheight : e.height = 1) (hjumps : JumpsFit (e.code scopes pool)) :
    e.Fits (levels + 1) scopes pending pool ↔ (∀ name, pending = some name → name ∉ e.names) ∧
      (pool.addAll (e.constants scopes)).length ≤ Draft.maxConstants := by
  constructor
  · exact fun h => ⟨h.locals, h.constants⟩
  · exact fun h => ⟨by omega, h.1, h.2, hjumps⟩

/-- An expression with one part, one level further in. -/
theorem fits_inner (e inner : Expr) (hheight : e.height = inner.height + 1)
    (hnames : e.names = inner.names) (hconstants : e.constants scopes = inner.constants scopes)
    (hjumps : JumpsFit (e.code scopes pool) ↔ JumpsFit (inner.code scopes pool)) :
    e.Fits (levels + 1) scopes pending pool ↔ inner.Fits levels scopes pending pool := by
  constructor
  · rintro ⟨hn, hnm, hc, hj⟩
    exact ⟨by omega, hnames ▸ hnm, hconstants ▸ hc, hjumps.mp hj⟩
  · rintro ⟨hn, hnm, hc, hj⟩
    exact ⟨by omega, hnames ▸ hnm, hconstants ▸ hc, hjumps.mpr hj⟩

/-- An assignment fits if its name can be used and its value fits after the constant of the
name. -/
theorem fits_assign {name : String} {value : Expr} :
    (Expr.assign name value).Fits (levels + 1) scopes pending pool ↔
      (pending ≠ some name ∧
        (pool.addAll (nameConstants scopes name)).length ≤ Draft.maxConstants) ∧
      value.Fits levels scopes pending (pool.addAll (nameConstants scopes name)) := by
  have hjumps : JumpsFit ((Expr.assign name value).code scopes pool) ↔
      JumpsFit (value.code scopes (pool.addAll (nameConstants scopes name))) := by
    simp [code, isJump_nameInstruction]
  constructor
  · rintro ⟨hn, hnm, hc, hj⟩
    rw [constants, Pool.addAll_append] at hc
    exact ⟨⟨fun hp => hnm name hp (List.mem_cons_self ..), (Pool.length_le_addAll _ _).trans hc⟩,
      Nat.le_of_succ_le_succ hn, fun other hp hmem => hnm other hp (List.mem_cons_of_mem _ hmem),
      hc, hjumps.mp hj⟩
  · rintro ⟨⟨hp, -⟩, hn, hnm, hc, hj⟩
    refine ⟨Nat.succ_le_succ hn, ?_, ?_, hjumps.mpr hj⟩
    · rintro other hother hmem
      rcases List.mem_cons.mp hmem with rfl | hmem
      · exact hp hother
      · exact hnm other hother hmem
    · rw [constants, Pool.addAll_append]
      exact hc

end Fits

end Expr

/-! ### Connectives -/

namespace Connective

/-- The code that a connective makes of that of its right operand. The code of the left operand
stands before it. -/
def code : Connective → List Instruction → List Instruction
  | binary op, right => right ++ op.opCodes.map (⟨·, 0⟩)
  | and, right => ifTruthy right
  | or, right => ifFalsey right

variable (c : Connective) (l r : Expr) (scopes : Scopes) (pool : Pool)

theorem height_apply : (c.apply l r).height = max l.height (r.height + 1) := by cases c <;> rfl

theorem names_apply : (c.apply l r).names = l.names ++ r.names := by cases c <;> rfl

theorem constants_apply :
    (c.apply l r).constants scopes = l.constants scopes ++ r.constants scopes := by cases c <;> rfl

theorem code_apply : (c.apply l r).code scopes pool =
    l.code scopes pool ++ c.code (r.code scopes (pool.addAll (l.constants scopes))) := by
  cases c with
  | binary op => exact List.append_assoc ..
  | and | or => rfl

/-- An expression fits if its left operand does and its right one does one level further in, and no
jump of the connective itself is too far. -/
theorem fits_apply {levels : Nat} {pending : Option String} :
    (c.apply l r).Fits (levels + 1) scopes pending pool ↔
      l.Fits (levels + 1) scopes pending pool ∧
        r.Fits levels scopes pending (pool.addAll (l.constants scopes)) ∧
        JumpsFit (c.code (r.code scopes (pool.addAll (l.constants scopes)))) := by
  constructor
  · rintro ⟨hn, hnm, hc, hj⟩
    rw [height_apply, max_le_iff] at hn
    rw [constants_apply, Pool.addAll_append] at hc
    rw [names_apply] at hnm
    rw [code_apply, jumpsFit_append] at hj
    have hright : JumpsFit (r.code scopes (pool.addAll (l.constants scopes))) := by
      intro i hi
      refine hj.2 i ?_
      cases c with
      | binary op => exact List.mem_append_left _ hi
      | and | or => simp [code, ifTruthy, ifFalsey, hi]
    exact ⟨⟨hn.1, fun name hp hmem => hnm name hp (List.mem_append_left _ hmem),
      (Pool.length_le_addAll _ _).trans hc, hj.1⟩,
      ⟨Nat.le_of_succ_le_succ hn.2, fun name hp hmem => hnm name hp (List.mem_append_right _ hmem),
        hc, hright⟩, hj.2⟩
  · rintro ⟨⟨hln, hlnm, -, hlj⟩, ⟨hrn, hrnm, hrc, -⟩, hj⟩
    refine ⟨?_, ?_, ?_, ?_⟩
    · rw [height_apply]
      exact max_le hln (Nat.succ_le_succ hrn)
    · intro name hp
      rw [names_apply, List.mem_append, not_or]
      exact ⟨hlnm name hp, hrnm name hp⟩
    · rw [constants_apply, Pool.addAll_append]
      exact hrc
    · rw [code_apply, jumpsFit_append]
      exact ⟨hlj, hj⟩

end Connective

namespace Draft

/-- The function compiles every expression, at any level, that fits into a number of levels of
nesting and is followed by a token that it does not go on with. -/
def Compiles (levels : Nat) (expr : Precedence → Draft → Draft) : Prop :=
  ∀ {p : Precedence} {e : Expr} {ts rest : List Token} {d : Draft} {s : Sketch},
    e.Derives p ts → d.Matches s → s.rest = ts ++ rest → Stops p (headKind rest) →
      (expr p d).Meets (e.Fits levels s.scopes s.pending s.pool) (·.Matches (e.after s rest))

/-! ### The loop over connectives -/

section Loop

variable {expr : Precedence → Draft → Draft} (hsteps : ∀ level d, Steps true d (expr level d))

/-- Compiles the connectives from the current token on. -/
def follow (expr : Precedence → Draft → Draft) (level : Precedence) (d : Draft) : Draft :=
  connectives expr level d.ahead d

/-- Compiles an operand and the connectives after it, without a look at what is left over. -/
def leading (expr : Precedence → Draft → Draft) (level : Precedence) (d : Draft) : Draft :=
  match d.current.kind.opening? with
  | none => d.advance.failAtPrevious (.expected .expression)
  | some opening => follow expr level (operand expr opening (decide (level ≤ .assignment)) d.advance)

include hsteps

theorem steps_follow (level : Precedence) (d : Draft) : Steps true d (follow expr level d) :=
  steps_connectives d hsteps level _

/-- How many connectives are allowed for does not matter, as long as there are as many as tokens. -/
theorem connectives_eq_of_le (level : Precedence) {d : Draft} (hproper : d.Proper)
    {bound bound' : List Token} (h : d.ahead.length ≤ bound.length)
    (h' : d.ahead.length ≤ bound'.length) :
    connectives expr level bound d = connectives expr level bound' d := by
  have hend : d.ahead = [] → d.current.kind.connective? = none := by
    intro hahead
    rw [hproper.current_kind_eq_end.mpr hahead]
    rfl
  induction bound generalizing d bound' with
  | nil =>
    have hnone := hend (List.length_eq_zero_iff.mp (Nat.le_zero.mp h))
    cases bound' with
    | nil => rfl
    | cons t bound' => rw [connectives, connectives, hnone]
  | cons t bound ih =>
    cases bound' with
    | nil =>
      have hnone := hend (List.length_eq_zero_iff.mp (Nat.le_zero.mp h'))
      rw [connectives, connectives, hnone]
    | cons t' bound' =>
      rw [connectives, connectives]
      cases hc : d.current.kind.connective? with
      | none => rfl
      | some c =>
        simp only
        by_cases hlevel : level ≤ c.precedence
        · rw [if_pos hlevel, if_pos hlevel]
          have hafter := (steps_advance d).trans (steps_connect d.advance hsteps c)
          have hlength : (connect expr c d.advance).ahead.length ≤ d.ahead.length - 1 := by
            refine (steps_connect d.advance hsteps c).tokens.1.length_le.trans ?_
            rw [hproper.advance_eq]
            exact (List.length_tail ..).le
          rw [List.length_cons] at h h'
          refine ih (hafter.proper hproper) (by omega) (by omega) ?_
          intro hahead
          rw [(hafter.proper hproper).current_kind_eq_end.mpr hahead]
          rfl
        · rw [if_neg hlevel, if_neg hlevel]

/-- At a connective that binds tightly enough, the loop goes on after its right operand. -/
theorem follow_of_connective (level : Precedence) {d : Draft} (hproper : d.Proper) {c : Connective}
    (hc : d.current.kind.connective? = some c) (hlevel : level ≤ c.precedence) :
    follow expr level d = follow expr level (connect expr c d.advance) := by
  have hsteps' := steps_connect d.advance hsteps c
  have hafter := ((steps_advance d).trans hsteps').proper hproper
  rw [follow]
  cases hahead : d.ahead with
  | nil =>
    rw [hproper.current_kind_eq_end.mpr hahead] at hc
    exact absurd hc nofun
  | cons t rest =>
    rw [connectives, hc]
    simp only
    rw [if_pos hlevel, follow]
    refine connectives_eq_of_le hsteps level hafter ?_ (Nat.le_refl _)
    refine hsteps'.tokens.1.length_le.trans ?_
    rw [hproper.advance_eq]
    show d.ahead.tail.length ≤ _
    rw [hahead, List.tail_cons]

omit hsteps in
/-- The loop ends at a token that the expression does not go on with. -/
theorem follow_of_stops {level : Precedence} {d : Draft} (h : Stops level d.current.kind) :
    follow expr level d = d := by
  rw [follow]
  cases d.ahead with
  | nil => rfl
  | cons t rest =>
    rw [connectives]
    cases hc : d.current.kind.connective? with
    | none => rfl
    | some c => exact if_neg (h.connective c hc)

end Loop

/-! ### Names -/

section Names

variable {expr : Precedence → Draft → Draft} {d : Draft} {s : Sketch}

/-- A name other than that of the pending local is used by the instruction of `nameInstruction`,
once its constant is in the pool. -/
theorem Matches.nameUse (hsteps : ∀ level d, Steps true d (expr level d)) (h : d.Matches s) {name : String}
    (hname : d.previous.lexeme = name) (assignable : Bool) :
    (Draft.nameUse expr assignable d).Meets
      (s.pending ≠ some name ∧
        (s.pool.addAll (nameConstants s.scopes name)).length ≤ maxConstants)
      fun r => ∃ (d' : Draft) (get set : OpCode) (operand : UInt8),
        r = access expr assignable get set operand d' ∧
        d'.Matches { s with pool := s.pool.addAll (nameConstants s.scopes name) } ∧
        (nameInstruction s.scopes s.pool name .getLocal .getGlobal).bytes =
          [get.toByte, operand] ∧
        (nameInstruction s.scopes s.pool name .setLocal .setGlobal).bytes =
          [set.toByte, operand] := by
  rw [Draft.nameUse, h.scope, hname, LocalScope.resolve_ofScopes, nameConstants, nameInstruction,
    nameInstruction]
  by_cases hpending : s.pending = some name
  · rw [if_pos hpending]
    exact .of_not_clean (h.not_clean_report _ _) fun hboth => hboth.1 hpending
  rw [if_neg hpending]
  cases hslot : slot? name s.scopes.names with
  | some slot =>
    have hmem : name ∈ s.scopes.names := by
      by_contra hnot
      rw [LocalScope.slot?_eq_none_iff.mpr hnot] at hslot
      exact absurd hslot (by rintro ⟨⟩)
    rw [if_pos hmem]
    exact .of_wanted ⟨d, _, _, _, rfl, h, rfl, rfl⟩ ⟨hpending, h.pool.bound⟩
  | none =>
    rw [if_neg (LocalScope.slot?_eq_none_iff.mp hslot)]
    rcases h.stringConstant name with ⟨hroom, hmatches, -, hindex⟩ | ⟨hroom, hclean⟩
    · refine .of_wanted ⟨(d.stringConstant name).2, .getGlobal, .setGlobal,
        (d.stringConstant name).1, rfl, hmatches, ?_, ?_⟩ ⟨hpending, hroom⟩
      · rw [hindex]
        rfl
      · rw [hindex]
        rfl
    · refine .of_not_clean ?_ fun hboth => hroom hboth.2
      exact mt (Steps.clean (steps_access _ hsteps assignable .getGlobal .setGlobal _)) hclean

end Names

/-! ### Right operands -/

section Connect

variable {levels : Nat} {expr : Precedence → Draft → Draft}
  (hexpr : Compiles levels expr) {d : Draft} {s : Sketch} (h : d.Matches s) {right : Expr}
  {rs rest : List Token} (hrest : s.rest = rs ++ rest)

include hexpr h hrest

theorem Matches.connect_binary {op : BinaryOp} (hright : right.Derives op.precedence.next rs)
    (hstops : Stops op.precedence.next (headKind rest)) :
    (connect expr (.binary op) d).Meets (right.Fits levels s.scopes s.pending s.pool)
      (·.Matches (s.extend (right.constants s.scopes)
        (right.code s.scopes s.pool ++ op.opCodes.map (⟨·, 0⟩)) rest)) := by
  refine (hexpr hright h hrest hstops).map (fun d => steps_emitOps d _) fun _ hd => ?_
  have hops := hd.emitOps op.opCodes (by cases op <;> decide)
  simpa [Expr.after, Sketch.extend] using hops

theorem Matches.connect_and (hright : right.Derives .and rs)
    (hstops : Stops .and (headKind rest)) :
    (connect expr .and d).Meets
      (right.Fits levels s.scopes s.pending s.pool ∧
        1 + codeSize (right.code s.scopes s.pool) ≤ maxDistance)
      (·.Matches (s.extend (right.constants s.scopes)
        (ifTruthy (right.code s.scopes s.pool)) rest)) := by
  obtain ⟨hplace, hjump⟩ := h.emitJump .jumpIfFalse
  have hright' := hexpr hright (hjump.emitOp .pop) hrest hstops
  have hcode : (right.after { s with code := s.code ++ [OpCode.jumpIfFalse.toByte, 0xFF, 0xFF] ++
        [OpCode.pop.toByte] } rest).code =
      s.code ++ [OpCode.jumpIfFalse.toByte, 0xFF, 0xFF] ++
        (OpCode.pop.toByte :: codeBytes (right.code s.scopes s.pool)) := by
    simp [Expr.after, Sketch.extend]
  show (Draft.patchJump _ (d.emitJump .jumpIfFalse).1).Meets _ _
  rw [hplace]
  refine hright'.bind (fun d => steps_patchJump d _) fun _ hd => ?_
  refine (hd.patchJump hcode).congr ?_ fun _ hmatches => ?_
  · simp [Nat.add_comm]
  · simpa [Expr.after, Sketch.extend, ifTruthy, Instruction.bytes, OpCode.operand, jumpBytes,
      Nat.add_comm] using hmatches

/-- The first jump of `or` always fits. -/
theorem Matches.connect_or (hright : right.Derives .or rs)
    (hstops : Stops .or (headKind rest)) :
    (connect expr .or d).Meets
      (right.Fits levels s.scopes s.pending s.pool ∧
        1 + codeSize (right.code s.scopes s.pool) ≤ maxDistance)
      (·.Matches (s.extend (right.constants s.scopes)
        (ifFalsey (right.code s.scopes s.pool)) rest)) := by
  obtain ⟨hother, hfirst⟩ := h.emitJump .jumpIfFalse
  obtain ⟨hdone, hsecond⟩ := hfirst.emitJump .jump
  have hskip := (hsecond.patchJump (show _ = s.code ++ [OpCode.jumpIfFalse.toByte, 0xFF, 0xFF] ++
    [OpCode.jump.toByte, 0xFF, 0xFF] from rfl)).of_condition (by decide)
  have hright' := hexpr hright (hskip.emitOp .pop) hrest hstops
  have hcode : (right.after { s with code := s.code ++ jumpBytes .jumpIfFalse 3 ++
        [OpCode.jump.toByte, 0xFF, 0xFF] ++ [OpCode.pop.toByte] } rest).code =
      (s.code ++ jumpBytes .jumpIfFalse 3) ++ [OpCode.jump.toByte, 0xFF, 0xFF] ++
        (OpCode.pop.toByte :: codeBytes (right.code s.scopes s.pool)) := by
    simp [Expr.after, Sketch.extend]
  have hplace : (s.code ++ jumpBytes .jumpIfFalse 3).length + 1 =
      (s.code ++ [OpCode.jumpIfFalse.toByte, 0xFF, 0xFF]).length + 1 := by simp [jumpBytes]
  show (Draft.patchJump (expr .or ((Draft.patchJump _ (d.emitJump .jumpIfFalse).1).emitOp .pop))
    ((d.emitJump .jumpIfFalse).2.emitJump .jump).1).Meets _ _
  rw [hother, hdone, ← hplace]
  refine hright'.bind (fun d => steps_patchJump d _) fun _ hd => ?_
  refine (hd.patchJump hcode).congr ?_ fun _ hmatches => ?_
  · simp [Nat.add_comm]
  · simpa [Expr.after, Sketch.extend, ifFalsey, Instruction.bytes, OpCode.operand, jumpBytes,
      Nat.add_comm] using hmatches

/-- **The right operand** of a connective that has just been passed. -/
theorem Matches.connect {c : Connective} (hright : right.Derives c.rightLevel rs)
    (hstops : Stops c.rightLevel (headKind rest)) :
    (Draft.connect expr c d).Meets
      (right.Fits levels s.scopes s.pending s.pool ∧ JumpsFit (c.code (right.code s.scopes s.pool)))
      (·.Matches (s.extend (right.constants s.scopes)
        (c.code (right.code s.scopes s.pool)) rest)) := by
  cases c with
  | binary op =>
    refine (h.connect_binary hexpr hrest hright hstops).of_iff (iff_self_and.mpr ?_)
    rintro ⟨-, -, -, hjumps⟩
    exact (jumpsFit_append _ _).mpr ⟨hjumps, Expr.jumpsFit_ops _⟩
  | and =>
    refine (h.connect_and hexpr hrest hright hstops).of_iff (and_congr_right ?_)
    rintro ⟨-, -, -, hjumps⟩
    simp [Connective.code, ifTruthy, hjumps, maxDistance, Instruction.isJump, OpCode.operand,
      OperandKind.size]
  | or =>
    refine (h.connect_or hexpr hrest hright hstops).of_iff (and_congr_right ?_)
    rintro ⟨-, -, -, hjumps⟩
    simp [Connective.code, ifFalsey, hjumps, maxDistance, Instruction.isJump, OpCode.operand,
      OperandKind.size]

end Connect

/-! ### Operands -/

theorem unquote_quoted (text : String) : unquote (quoted text) = text := by
  have hlist : (quoted text).toList = '"' :: (text.toList ++ ['"']) := by simp [quoted]
  rw [unquote, hlist, List.drop_one, List.tail_cons, List.dropLast_concat, String.ofList_toList]

section Operands

variable {levels : Nat} {expr : Precedence → Draft → Draft}
  (hsteps : ∀ level d, Steps true d (expr level d)) (hexpr : Compiles levels expr) {d : Draft}
  {s : Sketch} (h : d.Matches s) (assignable : Bool)

include h

theorem Matches.operand_literal (v : Literal) :
    (operand expr (.literal v) assignable d).Meets
      ((Expr.literal v).Fits (levels + 1) s.scopes s.pending s.pool)
      (·.Matches ((Expr.literal v).after s s.rest)) := by
  refine .of_wanted ?_ ((Expr.fits_leaf (.literal v) rfl (Expr.jumpsFit_ops [v.opCode])).mpr
    ⟨fun _ _ => List.not_mem_nil, h.pool.bound⟩)
  have hbytes : Instruction.bytes ⟨v.opCode, 0⟩ = [v.opCode.toByte] := by
    cases v with
    | nil => rfl
    | bool b => cases b <;> rfl
  simpa [Expr.after, Sketch.extend, Expr.code, Expr.constants, hbytes, operand] using
    h.emitOp v.opCode

theorem Matches.operand_number :
    (operand expr .number assignable d).Meets
      ((Expr.number (Number.parse d.previous.lexeme)).Fits (levels + 1) s.scopes s.pending s.pool)
      (·.Matches ((Expr.number (Number.parse d.previous.lexeme)).after s s.rest)) := by
  refine (h.emitNumber _).of_iff ?_
  rw [Expr.fits_leaf _ rfl (by simp [Expr.code, Instruction.isJump, OpCode.operand,
    OperandKind.size])]
  exact (and_iff_right fun _ _ => List.not_mem_nil).symm

theorem Matches.operand_string {text : String} (htext : d.previous.lexeme = quoted text) :
    (operand expr .string assignable d).Meets
      ((Expr.string text).Fits (levels + 1) s.scopes s.pending s.pool)
      (·.Matches ((Expr.string text).after s s.rest)) := by
  show (Draft.emitOpByte (d.stringConstant (unquote d.previous.lexeme)).2 .constant
    (d.stringConstant (unquote d.previous.lexeme)).1).Meets _ _
  rw [htext, unquote_quoted]
  refine Meets.of_iff ?_ ((h.stringConstant text).map (fun d => steps_emitOpByte d _ _)
    fun _ hboth => ?_)
  · rw [Expr.fits_leaf _ rfl (by simp [Expr.code, Instruction.isJump, OpCode.operand,
      OperandKind.size])]
    exact (and_iff_right fun _ _ => List.not_mem_nil).symm
  · rw [hboth.2.2]
    exact hboth.1.emitOpByte .constant _

include hsteps

theorem Matches.operand_variable (hequal : assignable = true → headKind s.rest ≠ .equal) :
    (operand expr .variable assignable d).Meets
      ((Expr.variable d.previous.lexeme).Fits (levels + 1) s.scopes s.pending s.pool)
      (·.Matches ((Expr.variable d.previous.lexeme).after s s.rest)) := by
  refine (h.nameUse hsteps rfl assignable).congr ?_ ?_
  · rw [Expr.fits_leaf _ rfl (by simp [Expr.code, Expr.isJump_nameInstruction])]
    refine and_congr_left fun _ => ?_
    rw [Expr.names]
    constructor
    · rintro hne name hname hmem
      rw [List.mem_singleton.mp hmem] at hname
      exact hne hname
    · exact fun hall hname => hall _ hname (List.mem_singleton_self _)
  · rintro - ⟨d', get, set, place, heq, hmatches, hget, -⟩
    have hcheck : ¬(assignable && d'.check .equal) = true := by
      rw [hmatches.check, Bool.and_eq_true, decide_eq_true_eq]
      exact fun hboth => hequal hboth.1 hboth.2
    show (Draft.nameUse expr assignable d).Matches _
    rw [heq, access, if_neg hcheck]
    simpa [Expr.after, Sketch.extend, Expr.code, Expr.constants, hget] using
      hmatches.emitOpByte get place

include hexpr

theorem Matches.operand_assign (hassignable : assignable = true) {value : Expr} {u : Token}
    {ts rest : List Token} (hrest : s.rest = u :: (ts ++ rest)) (hu : u.kind = .equal)
    (hvalue : value.Derives .assignment ts) (hstops : Stops .assignment (headKind rest)) :
    (operand expr .variable assignable d).Meets
      ((Expr.assign d.previous.lexeme value).Fits (levels + 1) s.scopes s.pending s.pool)
      (·.Matches ((Expr.assign d.previous.lexeme value).after s rest)) := by
  rw [Expr.fits_assign]
  refine Meets.bind (f := id) (h.nameUse hsteps rfl assignable) (fun _ => .refl) ?_
  rintro - ⟨d', get, set, place, heq, hmatches, -, hset⟩
  have hcheck : (assignable && d'.check .equal) = true := by
    rw [hmatches.check, Bool.and_eq_true, decide_eq_true_eq, hrest]
    exact ⟨hassignable, hu⟩
  show (Draft.nameUse expr assignable d).Meets _ _
  rw [heq, access, if_pos hcheck]
  refine (hexpr hvalue (hmatches.advance hrest) rfl hstops).map
    (fun d => steps_emitOpByte d _ _) fun _ hafter => ?_
  simpa [Expr.after, Sketch.extend, Expr.code, Expr.constants, Pool.addAll_append, hset] using
    hafter.emitOpByte set place

omit hsteps in
theorem Matches.operand_group {inner : Expr} {u : Token} {ts rest : List Token}
    (hrest : s.rest = ts ++ u :: rest) (hu : u.kind = .rightParen)
    (hinner : inner.Derives .assignment ts) :
    (operand expr .grouping assignable d).Meets
      ((Expr.group inner).Fits (levels + 1) s.scopes s.pending s.pool)
      (·.Matches ((Expr.group inner).after s rest)) := by
  have hstops : Stops .assignment (headKind (u :: rest)) := by
    rw [headKind_cons, hu]
    exact stops_of_connective?_eq_none rfl nofun
  refine Meets.of_iff (Expr.fits_inner (.group inner) inner rfl rfl rfl Iff.rfl).symm ?_
  exact (hexpr hinner h hrest hstops).map (fun d => steps_expect d _ _) fun _ hafter =>
    hafter.expect rfl hu .closeExpression

omit hsteps in
theorem Matches.operand_unary {op : UnaryOp} {inner : Expr} {ts rest : List Token}
    (hrest : s.rest = ts ++ rest) (hinner : inner.Derives .unary ts) :
    (operand expr (.unary op) assignable d).Meets
      ((Expr.unary op inner).Fits (levels + 1) s.scopes s.pending s.pool)
      (·.Matches ((Expr.unary op inner).after s rest)) := by
  refine Meets.of_iff (Expr.fits_inner (.unary op inner) inner rfl rfl rfl ?_).symm ?_
  · rw [Expr.code, jumpsFit_append]
    exact and_iff_left (Expr.jumpsFit_ops [op.opCode])
  · refine (hexpr hinner h hrest (stops_unary _)).map (fun d => steps_emitOp d _) fun _ hafter => ?_
    have hbytes : Instruction.bytes ⟨op.opCode, 0⟩ = [op.opCode.toByte] := by cases op <;> rfl
    simpa [Expr.after, Sketch.extend, Expr.code, Expr.constants, hbytes] using
      hafter.emitOp op.opCode

end Operands

/-! ### Climbing -/

section Climb

variable {levels : Nat} {expr : Precedence → Draft → Draft}
  (hsteps : ∀ level d, Steps true d (expr level d)) (hexpr : Compiles levels expr)

/-- What is wanted of a draft after an operand and its connectives: the loop over connectives is
where it would be if it had just read a draft that matches the sketch. -/
def ClimbsTo (expr : Precedence → Draft → Draft) (p : Precedence) (s : Sketch) (r : Draft) : Prop :=
  ∃ d : Draft, d.Matches s ∧ r = follow expr p d

include hsteps

/-- An operand is the least that can be a left operand. -/
theorem Meets.leading {p : Precedence} {d : Draft} {s : Sketch} {condition : Prop}
    {opening : Opening} (hopening : d.current.kind.opening? = some opening)
    (h : (operand expr opening (decide (p ≤ .assignment)) d.advance).Meets condition
      (·.Matches s)) :
    (leading expr p d).Meets condition (ClimbsTo expr p s) := by
  have heq : Draft.leading expr p d =
      follow expr p (operand expr opening (decide (p ≤ .assignment)) d.advance) := by
    rw [Draft.leading, hopening]
  rw [heq]
  exact h.map (steps_follow hsteps p) fun _ hd => ⟨_, hd, rfl⟩

include hexpr

/-- A left operand, a connective and a right operand are a left operand again. -/
theorem Meets.climb {p : Precedence} {r : Draft} {s : Sketch} {left right : Expr}
    (c : Connective) {t : Token} {rs rest : List Token}
    (h : r.Meets (left.Fits (levels + 1) s.scopes s.pending s.pool)
      (ClimbsTo expr p (left.after s (t :: (rs ++ rest)))))
    (ht : t.kind = c.token) (hp : p ≤ c.precedence) (hright : right.Derives c.rightLevel rs)
    (hstops : Stops c.rightLevel (headKind rest)) :
    r.Meets ((c.apply left right).Fits (levels + 1) s.scopes s.pending s.pool)
      (ClimbsTo expr p ((c.apply left right).after s rest)) := by
  refine Meets.of_iff (c.fits_apply left right s.scopes s.pool).symm ?_
  refine Meets.bind (f := id) h (fun _ => .refl) ?_
  rintro - ⟨d, hd, rfl⟩
  have hc : d.current.kind.connective? = some c := by
    rw [hd.current rfl, TokenKind.connective?_eq_some_iff, ht]
  rw [id, follow_of_connective hsteps p hd.proper hc hp]
  refine ((hd.advance rfl).connect hexpr rfl hright hstops).map
    (fun d => steps_follow hsteps p d) fun _ hafter => ⟨_, ?_, rfl⟩
  simpa [Expr.after, Sketch.extend, Connective.constants_apply, Connective.code_apply,
    Pool.addAll_append] using hafter

/-- **Climbing.** After the tokens of an expression that can be a left operand, the loop over
connectives is where it would be after an operand. -/
theorem climb {p q : Precedence} {e : Expr} {ts rest : List Token} {d : Draft} {s : Sketch}
    (hderives : e.Derives q ts) (h : d.Matches s) (hrest : s.rest = ts ++ rest) (hpq : p ≤ q)
    (hfollows : Follows q (headKind rest)) (hequal : p ≤ .assignment → headKind rest ≠ .equal) :
    (leading expr p d).Meets (e.Fits (levels + 1) s.scopes s.pending s.pool)
      (ClimbsTo expr p (e.after s rest)) := by
  induction hderives generalizing d s rest with
  | @literal q v t kind =>
    exact Meets.leading hsteps (by rw [h.current hrest, kind, Literal.opening?_token])
      ((h.advance hrest).operand_literal _ v)
  | @number q t kind =>
    rw [← h.previous_advance hrest]
    exact Meets.leading hsteps (by rw [h.current hrest, kind]; rfl)
      ((h.advance hrest).operand_number _)
  | @string q text t kind lexeme =>
    exact Meets.leading hsteps (by rw [h.current hrest, kind]; rfl)
      ((h.advance hrest).operand_string _ (by rw [h.previous_advance hrest, lexeme]))
  | @«variable» q t kind =>
    rw [← h.previous_advance hrest]
    exact Meets.leading hsteps (by rw [h.current hrest, kind]; rfl)
      ((h.advance hrest).operand_variable hsteps _ fun hp => hequal (of_decide_eq_true hp))
  | @assign q value t u ts loose name sign right ih =>
    have hp : p ≤ .assignment := Precedence.le_trans hpq loose
    rw [← h.previous_advance hrest]
    exact Meets.leading hsteps (by rw [h.current hrest, name]; rfl)
      ((h.advance hrest).operand_assign hsteps hexpr _ (decide_eq_true hp) rfl sign right
        (hfollows.stops_assignment loose (hequal hp)))
  | @group q inner t u ts opening derives closing ih =>
    exact Meets.leading hsteps (by rw [h.current hrest, opening]; rfl)
      ((h.advance hrest).operand_group hexpr _ (by simp) closing derives)
  | @unary q op inner t ts loose sign derives ih =>
    exact Meets.leading hsteps (by rw [h.current hrest, sign, UnaryOp.opening?_token])
      ((h.advance hrest).operand_unary hexpr _ rfl derives)
  | @binary q op left right t ls rs loose lefts sign rights ihl ihr =>
    have hp := Precedence.le_trans hpq loose
    have hleft := ihl h (show _ = ls ++ t :: (rs ++ rest) by rw [hrest, List.append_assoc]; rfl)
      (Precedence.le_trans hp (Connective.binary op).precedence_le_leftLevel)
      (by rw [headKind_cons, sign]; exact follows_leftLevel (.binary op))
      (by rw [headKind_cons, sign]; exact fun _ => (Connective.binary op).token_ne_equal)
    exact Meets.climb hsteps hexpr (.binary op) hleft sign hp rights
      (hfollows.stops_rightLevel (.binary op) loose)
  | @and q left right t ls rs loose lefts sign rights ihl ihr =>
    have hp := Precedence.le_trans hpq loose
    have hleft := ihl h (show _ = ls ++ t :: (rs ++ rest) by rw [hrest, List.append_assoc]; rfl)
      (Precedence.le_trans hp Connective.and.precedence_le_leftLevel)
      (by rw [headKind_cons, sign]; exact follows_leftLevel .and)
      (by rw [headKind_cons, sign]; exact fun _ => Connective.and.token_ne_equal)
    exact Meets.climb hsteps hexpr .and hleft sign hp rights
      (hfollows.stops_rightLevel .and loose)
  | @or q left right t ls rs loose lefts sign rights ihl ihr =>
    have hp := Precedence.le_trans hpq loose
    have hleft := ihl h (show _ = ls ++ t :: (rs ++ rest) by rw [hrest, List.append_assoc]; rfl)
      (Precedence.le_trans hp Connective.or.precedence_le_leftLevel)
      (by rw [headKind_cons, sign]; exact follows_leftLevel .or)
      (by rw [headKind_cons, sign]; exact fun _ => Connective.or.token_ne_equal)
    exact Meets.climb hsteps hexpr .or hleft sign hp rights
      (hfollows.stops_rightLevel .or loose)

end Climb

/-! ### Expressions -/

/-- An `=` that is left over is reported where an assignment may stand. -/
def refuseEqual (assignable : Bool) (d : Draft) : Draft :=
  if assignable && d.check .equal then d.advance.failAtPrevious .invalidAssignmentTarget else d

theorem steps_refuseEqual (assignable : Bool) (d : Draft) : Steps true d (refuseEqual assignable d) := by
  rw [refuseEqual]
  split
  · exact (steps_advance d).trans (steps_failAtPrevious _ _)
  · exact .refl

theorem operandAndConnectives_eq (expr : Precedence → Draft → Draft) (p : Precedence) (d : Draft)
    (hopening : d.current.kind.opening?.isSome) :
    operandAndConnectives expr p d.advance =
      refuseEqual (decide (p ≤ .assignment)) (leading expr p d) := by
  obtain ⟨opening, hopening⟩ := Option.isSome_iff_exists.mp hopening
  rw [operandAndConnectives, previous_advance, leading, hopening]
  rfl

/-- **Expressions.** The compiler writes the code of an expression that fits into the levels left,
and reports something if it does not fit. -/
theorem compiles_expressionAt (levels : Nat) : Compiles levels (expressionAt levels) := by
  induction levels with
  | zero =>
    intro p e ts rest d s _ h _ _
    exact .of_not_clean (h.not_clean_report _ _) fun hfits =>
      absurd hfits.nesting (Nat.not_le_of_lt e.height_pos)
  | succ levels ih =>
    intro p e ts rest d s hderives h hrest hstops
    have hsteps : ∀ p d, Steps true d _ := fun p d => steps_expressionAt d levels p
    obtain ⟨t, us, rfl, ht⟩ := hderives.exists_cons
    have hopening : d.current.kind.opening?.isSome := by rwa [h.current hrest]
    rw [expressionAt, operandAndConnectives_eq _ _ _ hopening]
    refine (climb hsteps ih hderives h hrest (Nat.le_refl _) hstops.follows hstops.equal).map
      (steps_refuseEqual _) ?_
    rintro - ⟨d', hd', heq⟩
    have hkind : d'.current.kind = headKind rest := hd'.current_kind
    have hcheck : ¬(decide (p ≤ .assignment) && d'.check .equal) = true := by
      rw [hd'.check, Bool.and_eq_true, decide_eq_true_eq, decide_eq_true_eq]
      exact fun hboth => hstops.equal hboth.1 hboth.2
    rw [heq, follow_of_stops (hkind ▸ hstops), refuseEqual, if_neg hcheck]
    exact hd'

end Draft

end Lox
