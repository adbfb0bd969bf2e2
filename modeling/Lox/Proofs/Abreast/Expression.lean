import Lox.Proofs.Draft.Invariants

/-!
# Compiling expressions without faults side by side

Two compilations in which nothing goes wrong write the same number of bytes for each token, as soon
as their tokens are of the same kinds. Which names the tokens have and what the limits are decides
only whether something goes wrong. `Abreast` says what a relation between two drafts must keep for
that, operation by operation; each operation need keep it only where it reports nothing.

The two compilations may have different numbers of levels of nesting left, and may use the same name
in different ways.

## Main definitions

* `Faultless`: nothing is wrong so far.
* `Tracks`: two functions keep a relation between drafts as long as nothing is wrong.
* `Abreast`: what a relation between drafts must keep.

## Main results

* `Tracks.andThen`, `Tracks.byKey`: functions that keep a relation compose.
* `Abreast.expressionAt`: compiling an expression keeps the relation.
-/

namespace Lox

namespace Draft

/-- Nothing has been reported, and no sequence of declarations is endless. -/
structure Faultless (d : Draft) : Prop where
  clean : d.Clean
  running : d.stalled = false

/-- What is wrong stays wrong. -/
theorem Steps.faultless {d d' : Draft} (h : Steps true d d') (hd : d'.Faultless) : d.Faultless :=
  ⟨h.clean hd.clean, h.running hd.running⟩

/-! ### Functions that keep a relation -/

/-- The functions take steps, and keep the relation if nothing is wrong afterwards. -/
structure Tracks (Rel : Draft → Draft → Prop) (f f' : Draft → Draft) : Prop where
  left (d : Draft) : Steps true d (f d)
  right (d : Draft) : Steps true d (f' d)
  keeps {d d' : Draft} : Rel d d' → (f d).Faultless → (f' d').Faultless → Rel (f d) (f' d')

section Tracks

variable {Rel : Draft → Draft → Prop} {f f' g g' : Draft → Draft}

theorem Tracks.id : Tracks Rel (fun d => d) (fun d => d) where
  left _ := .refl
  right _ := .refl
  keeps hd _ _ := hd

/-- Where nothing is wrong after both, nothing was wrong between them. -/
theorem Tracks.andThen (hf : Tracks Rel f f') (hg : Tracks Rel g g') :
    Tracks Rel (fun d => g (f d)) (fun d => g' (f' d)) where
  left d := (hf.left d).trans (hg.left _)
  right d := (hf.right d).trans (hg.right _)
  keeps hd h h' :=
    hg.keeps (hf.keeps hd ((hg.left _).faultless h) ((hg.right _).faultless h')) h h'

/-- Whether functions keep a relation may be looked at apart for each value of something that related
drafts have in common. -/
theorem Tracks.of_key {α : Type} (key : Draft → α) (hkey : ∀ d d', Rel d d' → key d = key d')
    (h : ∀ k, ∃ g g', Tracks Rel g g' ∧ ∀ d, key d = k → f d = g d ∧ f' d = g' d) :
    Tracks Rel f f' where
  left d := by
    obtain ⟨g, g', hg, heq⟩ := h (key d)
    exact (heq d rfl).1 ▸ hg.left d
  right d := by
    obtain ⟨g, g', hg, heq⟩ := h (key d)
    exact (heq d rfl).2 ▸ hg.right d
  keeps {d d'} hd hf hf' := by
    obtain ⟨g, g', hg, heq⟩ := h (key d)
    rw [(heq d rfl).1] at hf ⊢
    rw [(heq d' (hkey d d' hd).symm).2] at hf' ⊢
    exact hg.keeps hd hf hf'

/-- What a function does may depend on something that related drafts have in common. -/
theorem Tracks.byKey {α : Type} (key : Draft → α) {f f' : α → Draft → Draft}
    (hkey : ∀ d d', Rel d d' → key d = key d') (h : ∀ k, Tracks Rel (f k) (f' k)) :
    Tracks Rel (fun d => f (key d) d) (fun d => f' (key d) d) :=
  .of_key key hkey fun k => ⟨f k, f' k, h k, fun _ hd => hd ▸ ⟨rfl, rfl⟩⟩

/-- A function that leaves something wrong keeps everything. -/
theorem Tracks.of_not_faultless (hf : ∀ d, Steps true d (f d)) (hf' : ∀ d, Steps true d (f' d))
    (h : ∀ {d d'}, Rel d d' → ¬(f d).Faultless) : Tracks Rel f f' where
  left := hf
  right := hf'
  keeps hd hfault _ := absurd hfault (h hd)

end Tracks

/-! ### Using names -/

/-- The instructions for reading and assigning the name just passed with their operand, and the draft
from there on, unless the name cannot be used. -/
def lookup (d : Draft) : Option (OpCode × OpCode × UInt8 × Draft) :=
  match d.scope.resolve d.previous.lexeme with
  | .error _ => none
  | .ok (some slot) => some (.getLocal, .setLocal, UInt8.ofNat slot, d)
  | .ok none =>
    let (index, d) := d.stringConstant d.previous.lexeme
    some (.getGlobal, .setGlobal, index, d)

/-- A name that cannot be used is reported, and any other is read or assigned. -/
theorem nameUse_cases (expr : Precedence → Draft → Draft) (assignable : Bool) (d : Draft) :
    (∃ problem, nameUse expr assignable d = d.failAtPrevious problem) ∨
      ∃ get set operand e, d.lookup = some (get, set, operand, e) ∧
        nameUse expr assignable d = access expr assignable get set operand e := by
  rw [nameUse, lookup]
  cases d.scope.resolve d.previous.lexeme with
  | error cause => exact .inl ⟨_, rfl⟩
  | ok slot =>
    cases slot with
    | none => exact .inr ⟨_, _, _, _, rfl, rfl⟩
    | some slot => exact .inr ⟨_, _, _, _, rfl, rfl⟩

/-- Looking up a name changes the constants at most, unless that is reported. -/
theorem exists_lookup_eq {d e : Draft} {get set : OpCode} {operand : UInt8}
    (h : d.lookup = some (get, set, operand, e)) : Steps true d e ∧
      ∃ constants panicking diagnostics strings interner, e =
        { d with chunk := { d.chunk with constants }, panicking, diagnostics, strings, interner } := by
  rw [lookup] at h
  split at h
  · cases h
  · cases h
    exact ⟨.refl, d.chunk.constants, d.panicking, d.diagnostics, d.strings, d.interner, rfl⟩
  · cases h
    exact ⟨steps_stringConstant d _, exists_stringConstant_eq d _⟩

/-! ### What a relation must keep -/

/-- A relation between the drafts of two compilations that compiling keeps as long as nothing is
wrong with either. The bytes that they write at one place are related by `Byte`. -/
structure Abreast (Rel : Draft → Draft → Prop) (Byte : UInt8 → UInt8 → Prop) : Prop where
  byte (byte : UInt8) : Byte byte byte
  calm {d d' : Draft} : Rel d d' → d.panicking = false ∧ d'.panicking = false
  running {d d' : Draft} : Rel d d' → d.stalled = false ∧ d'.stalled = false
  previous {d d' : Draft} : Rel d d' → d.previous.kind = d'.previous.kind
  current {d d' : Draft} : Rel d d' → d.current.kind = d'.current.kind
  ahead {d d' : Draft} : Rel d d' → d.ahead.length = d'.ahead.length
  isGlobal {d d' : Draft} : Rel d d' → d.scope.isGlobal = d'.scope.isGlobal
  size {d d' : Draft} : Rel d d' → d.size = d'.size
  advance {d d' : Draft} : Rel d d' → d.advance.Faultless → d'.advance.Faultless →
    Rel d.advance d'.advance
  emitByte {d d' : Draft} {byte byte' : UInt8} : Rel d d' → Byte byte byte' →
    Rel (d.emitByte byte) (d'.emitByte byte')
  patch {d d' : Draft} (offset distance : Nat) : Rel d d' →
    Rel { d with chunk := d.chunk.patch offset distance }
      { d' with chunk := d'.chunk.patch offset distance }
  number {d d' : Draft} : Rel d d' →
    let added := d.addConstant (.number (Number.parse d.previous.lexeme))
    let added' := d'.addConstant (.number (Number.parse d'.previous.lexeme))
    added.2.Faultless → added'.2.Faultless →
      Byte (added.1.getD 0) (added'.1.getD 0) ∧ Rel added.2 added'.2
  /-- The text of a constant is that of the token just passed, or a part of it. -/
  stringConstant {d d' : Draft} (part : String → String) : Rel d d' →
    let added := d.stringConstant (part d.previous.lexeme)
    let added' := d'.stringConstant (part d'.previous.lexeme)
    added.2.Faultless → added'.2.Faultless → Byte added.1 added'.1 ∧ Rel added.2 added'.2
  lookup {d d' e e' : Draft} {get get' set set' : OpCode} {operand operand' : UInt8} : Rel d d' →
    d.lookup = some (get, set, operand, e) → d'.lookup = some (get', set', operand', e') →
    e.Faultless → e'.Faultless →
      Byte get.toByte get'.toByte ∧ Byte set.toByte set'.toByte ∧ Byte operand operand' ∧ Rel e e'
  declareLocal {d d' : Draft} : Rel d d' → (d.declareLocal d.previous.lexeme).Faultless →
    (d'.declareLocal d'.previous.lexeme).Faultless →
    Rel (d.declareLocal d.previous.lexeme) (d'.declareLocal d'.previous.lexeme)
  completeLocal {d d' : Draft} : Rel d d' → Rel d.completeLocal d'.completeLocal
  beginScope {d d' : Draft} : Rel d d' → Rel d.beginScope d'.beginScope
  leave {d d' : Draft} : Rel d d' →
    d.scope.size - d.scope.leave.size = d'.scope.size - d'.scope.leave.size ∧
      Rel { d with scope := d.scope.leave } { d' with scope := d'.scope.leave }

namespace Abreast

variable {Rel : Draft → Draft → Prop} {Byte : UInt8 → UInt8 → Prop} (h : Abreast Rel Byte)

include h

/-! ### Tokens and code -/

theorem check {d d' : Draft} (hd : Rel d d') (kind : TokenKind) : d.check kind = d'.check kind := by
  rw [Draft.check, Draft.check, h.current hd]

/-- A report is not suppressed. -/
theorem not_faultless_report {d d' : Draft} (hd : Rel d d') (t : Token) (problem : Problem) :
    ¬(d.report t problem).Faultless := fun hfault =>
  absurd (report_clean_iff.mp hfault.clean).2 (Bool.eq_false_iff.mp (h.calm hd).1)

theorem failAtPrevious (problem : Problem) :
    Tracks Rel (·.failAtPrevious problem) (·.failAtPrevious problem) :=
  .of_not_faultless (steps_failAtPrevious · problem) (steps_failAtPrevious · problem)
    fun hd => h.not_faultless_report hd _ _

theorem failAtCurrent (problem : Problem) :
    Tracks Rel (·.failAtCurrent problem) (·.failAtCurrent problem) :=
  .of_not_faultless (steps_failAtCurrent · problem) (steps_failAtCurrent · problem)
    fun hd => h.not_faultless_report hd _ _

theorem pass : Tracks Rel Draft.advance Draft.advance where
  left := steps_advance
  right := steps_advance
  keeps := h.advance

/-- What is done may depend on whether the current token is of a kind. -/
theorem ifCheck (kind : TokenKind) {f f' g g' : Draft → Draft} (hf : Tracks Rel f f')
    (hg : Tracks Rel g g') : Tracks Rel (fun d => if d.check kind then f d else g d)
      (fun d => if d.check kind then f' d else g' d) := by
  have hchoice : ∀ found : Bool, Tracks Rel (fun d => if found then f d else g d)
      (fun d => if found then f' d else g' d) := by
    intro found
    cases found with
    | false => exact hg
    | true => exact hf
  exact Tracks.byKey (·.check kind) (fun _ _ hd => h.check hd kind) hchoice

theorem expect (kind : TokenKind) (what : Expectation) :
    Tracks Rel (·.expect kind what) (·.expect kind what) :=
  h.ifCheck kind h.pass (h.failAtCurrent _)

theorem write {byte byte' : UInt8} (hbyte : Byte byte byte') :
    Tracks Rel (·.emitByte byte) (·.emitByte byte') where
  left := (steps_emitByte · byte)
  right := (steps_emitByte · byte')
  keeps hd _ _ := h.emitByte hd hbyte

theorem emitOp (op : OpCode) : Tracks Rel (·.emitOp op) (·.emitOp op) := h.write (h.byte _)

theorem emitOpByte {op op' : OpCode} {byte byte' : UInt8} (hop : Byte op.toByte op'.toByte)
    (hbyte : Byte byte byte') : Tracks Rel (·.emitOpByte op byte) (·.emitOpByte op' byte') :=
  (h.write hop).andThen (h.write hbyte)

theorem emitOps (ops : List OpCode) : Tracks Rel (ops.foldl Draft.emitOp) (ops.foldl Draft.emitOp) := by
  induction ops with
  | nil => exact .id
  | cons op ops ih => exact (h.emitOp op).andThen ih

/-- What is done after a jump has been written knows where its placeholder is. -/
theorem jump (op : OpCode) {f f' : Nat → Draft → Draft}
    (hf : ∀ place, Tracks Rel (f place) (f' place)) :
    Tracks Rel (fun d => f (d.emitJump op).1 (d.emitJump op).2)
      (fun d => f' (d.emitJump op).1 (d.emitJump op).2) := by
  have hwrite : Tracks Rel (fun d => (d.emitJump op).2) (fun d => (d.emitJump op).2) :=
    ((h.emitOp op).andThen (h.write (h.byte _))).andThen (h.write (h.byte _))
  have hplace : ∀ d d', Rel d d' → (d.emitJump op).1 = (d'.emitJump op).1 := fun d d' hd =>
    congrArg (· - 2) (h.size (h.emitByte (h.emitByte (h.emitByte hd (h.byte _)) (h.byte _)) (h.byte _)))
  exact Tracks.byKey (fun d => (d.emitJump op).1) hplace fun place => hwrite.andThen (hf place)

theorem patchJump (place : Nat) : Tracks Rel (·.patchJump place) (·.patchJump place) := by
  have hdistance : ∀ distance : Nat,
      Tracks Rel
        (fun d => if distance ≤ maxDistance then
          { d with chunk := d.chunk.patch place distance } else d.failAtPrevious .jumpTooLarge)
        (fun d => if distance ≤ maxDistance then
          { d with chunk := d.chunk.patch place distance } else d.failAtPrevious .jumpTooLarge) := by
    intro distance
    split
    · exact ⟨fun d => (Step.patch d _ _).steps, fun d => (Step.patch d _ _).steps,
        fun hd _ _ => h.patch _ _ hd⟩
    · exact h.failAtPrevious _
  exact Tracks.byKey (fun d => d.size - place - 2) (fun _ _ hd => by rw [h.size hd]) hdistance

theorem emitLoop (target : Nat) : Tracks Rel (·.emitLoop target) (·.emitLoop target) := by
  have hdistance : ∀ distance : Nat,
      Tracks Rel
        (fun d => if distance ≤ maxDistance then
          (d.emitByte (Chunk.highByte distance)).emitByte (Chunk.lowByte distance)
          else ((d.failAtPrevious .loopTooLarge).emitByte 0xFF).emitByte 0xFF)
        (fun d => if distance ≤ maxDistance then
          (d.emitByte (Chunk.highByte distance)).emitByte (Chunk.lowByte distance)
          else ((d.failAtPrevious .loopTooLarge).emitByte 0xFF).emitByte 0xFF) := by
    intro distance
    split
    · exact (h.write (h.byte _)).andThen (h.write (h.byte _))
    · exact ((h.failAtPrevious _).andThen (h.write (h.byte _))).andThen (h.write (h.byte _))
  exact (h.emitOp .loop).andThen
    (Tracks.byKey (fun d => d.size - target + 2) (fun _ _ hd => by rw [h.size hd]) hdistance)

/-! ### Expressions -/

section Expressions

variable {expr expr' : Precedence → Draft → Draft}
  (hexpr : ∀ level, Tracks Rel (expr level) (expr' level))

include hexpr

theorem access (assignable : Bool) {get get' set set' : OpCode} {operand operand' : UInt8}
    (hget : Byte get.toByte get'.toByte) (hset : Byte set.toByte set'.toByte)
    (hoperand : Byte operand operand') :
    Tracks Rel (access expr assignable get set operand)
      (access expr' assignable get' set' operand') := by
  cases assignable with
  | false => exact h.emitOpByte hget hoperand
  | true =>
    exact h.ifCheck .equal ((h.pass.andThen (hexpr _)).andThen (h.emitOpByte hset hoperand))
      (h.emitOpByte hget hoperand)

theorem nameUse (assignable : Bool) :
    Tracks Rel (nameUse expr assignable) (nameUse expr' assignable) where
  left d := steps_nameUse d (fun level => (hexpr level).left) assignable
  right d := steps_nameUse d (fun level => (hexpr level).right) assignable
  keeps {d d'} hd hfault hfault' := by
    rcases nameUse_cases expr assignable d with
      ⟨problem, heq⟩ | ⟨get, set, operand, e, hlookup, heq⟩
    · exact absurd (heq ▸ hfault) (h.not_faultless_report hd _ _)
    rcases nameUse_cases expr' assignable d' with
      ⟨problem, heq'⟩ | ⟨get', set', operand', e', hlookup', heq'⟩
    · refine absurd (report_clean_iff.mp (heq' ▸ hfault').clean).2 ?_
      exact Bool.eq_false_iff.mp (h.calm hd).2
    rw [heq] at hfault ⊢
    rw [heq'] at hfault' ⊢
    have hstart := (steps_access e (fun level => (hexpr level).left) ..).faultless hfault
    have hstart' := (steps_access e' (fun level => (hexpr level).right) ..).faultless hfault'
    obtain ⟨hget, hset, hoperand, he⟩ := h.lookup hd hlookup hlookup' hstart hstart'
    exact (h.access hexpr assignable hget hset hoperand).keeps he hfault hfault'

omit hexpr in
theorem numberOperand :
    Tracks Rel (fun d => d.emitConstant (.number (Number.parse d.previous.lexeme)))
      (fun d => d.emitConstant (.number (Number.parse d.previous.lexeme))) where
  left d := steps_emitConstant d _
  right d := steps_emitConstant d _
  keeps {d d'} hd hfault hfault' := by
    obtain ⟨hindex, hadded⟩ := h.number hd ((steps_emitOpByte _ _ _).faultless hfault)
      ((steps_emitOpByte _ _ _).faultless hfault')
    exact h.emitByte (h.emitByte hadded (h.byte _)) hindex

omit hexpr in
/-- A constant made of the token just passed, whose index goes into what is done next. -/
theorem text (part : String → String) {f f' : UInt8 → Draft → Draft}
    (hf : ∀ {index index'}, Byte index index' → Tracks Rel (f index) (f' index')) :
    Tracks Rel
      (fun d => f (d.stringConstant (part d.previous.lexeme)).1
        (d.stringConstant (part d.previous.lexeme)).2)
      (fun d => f' (d.stringConstant (part d.previous.lexeme)).1
        (d.stringConstant (part d.previous.lexeme)).2) where
  left d := (steps_stringConstant d _).trans ((hf (h.byte _)).left _)
  right d := (steps_stringConstant d _).trans ((hf (h.byte _)).right _)
  keeps {d d'} hd hfault hfault' := by
    obtain ⟨hindex, hadded⟩ := h.stringConstant part hd (((hf (h.byte _)).left _).faultless hfault)
      (((hf (h.byte _)).right _).faultless hfault')
    exact (hf hindex).keeps hadded hfault hfault'

theorem operand (opening : Opening) (assignable : Bool) :
    Tracks Rel (operand expr opening assignable) (operand expr' opening assignable) := by
  cases opening with
  | grouping => exact (hexpr _).andThen (h.expect _ _)
  | unary op => exact (hexpr _).andThen (h.emitOp _)
  | number => exact h.numberOperand
  | string =>
    have hpush : ∀ {index index'}, Byte index index' →
        Tracks Rel (·.emitOpByte .constant index) (·.emitOpByte .constant index') :=
      h.emitOpByte (h.byte _)
    exact h.text unquote hpush
  | literal value => exact h.emitOp _
  | «variable» => exact h.nameUse hexpr assignable

theorem conjunction : Tracks Rel (conjunction expr) (conjunction expr') := by
  have hright : ∀ done, Tracks Rel (fun d => (expr .and (d.emitOp .pop)).patchJump done)
      (fun d => (expr' .and (d.emitOp .pop)).patchJump done) := fun done =>
    ((h.emitOp .pop).andThen (hexpr .and)).andThen (h.patchJump done)
  exact h.jump .jumpIfFalse hright

theorem disjunction : Tracks Rel (disjunction expr) (disjunction expr') := by
  have hright : ∀ other done, Tracks Rel
      (fun d => (expr .or ((d.patchJump other).emitOp .pop)).patchJump done)
      (fun d => (expr' .or ((d.patchJump other).emitOp .pop)).patchJump done) := fun other done =>
    (((h.patchJump other).andThen (h.emitOp .pop)).andThen (hexpr .or)).andThen (h.patchJump done)
  exact h.jump .jumpIfFalse fun other => h.jump .jump (hright other)

theorem connect (connective : Connective) :
    Tracks Rel (connect expr connective) (connect expr' connective) := by
  cases connective with
  | binary op => exact (hexpr _).andThen (h.emitOps _)
  | and => exact h.conjunction hexpr
  | or => exact h.disjunction hexpr

theorem connectives (level : Precedence) {bound bound' : List Token}
    (hbound : bound.length = bound'.length) :
    Tracks Rel (connectives expr level bound) (connectives expr' level bound') := by
  induction bound generalizing bound' with
  | nil =>
    obtain rfl := List.eq_nil_of_length_eq_zero hbound.symm
    exact .id
  | cons t bound ih =>
    obtain ⟨t', bound', rfl⟩ := List.exists_cons_of_length_eq_add_one hbound.symm
    have hmore : ∀ connective : Connective, Tracks Rel
        (fun d => if level ≤ connective.precedence then
          Draft.connectives expr level bound (Draft.connect expr connective d.advance) else d)
        (fun d => if level ≤ connective.precedence then
          Draft.connectives expr' level bound' (Draft.connect expr' connective d.advance)
          else d) := by
      intro connective
      split
      · exact (h.pass.andThen (h.connect hexpr connective)).andThen (ih (Nat.succ.inj hbound))
      · exact .id
    refine Tracks.of_key (·.current.kind.connective?)
      (fun _ _ hd => congrArg TokenKind.connective? (h.current hd)) fun found => ?_
    cases found with
    | none => exact ⟨_, _, .id, fun d hd => by simp [Draft.connectives, hd]⟩
    | some connective =>
      exact ⟨_, _, hmore connective, fun d hd => by simp [Draft.connectives, hd]⟩

theorem operandAndConnectives (level : Precedence) :
    Tracks Rel (operandAndConnectives expr level) (operandAndConnectives expr' level) := by
  have hloop : Tracks Rel (fun d => Draft.connectives expr level d.ahead d)
      (fun d => Draft.connectives expr' level d.ahead d) := {
    left := fun d => steps_connectives d (fun level => (hexpr level).left) level _
    right := fun d => steps_connectives d (fun level => (hexpr level).right) level _
    keeps := fun hd => (h.connectives hexpr level (h.ahead hd)).keeps hd }
  have hequal : ∀ assignable : Bool, Tracks Rel
      (fun d => if assignable && d.check .equal
        then d.advance.failAtPrevious .invalidAssignmentTarget else d)
      (fun d => if assignable && d.check .equal
        then d.advance.failAtPrevious .invalidAssignmentTarget else d) := by
    intro assignable
    cases assignable with
    | false => exact .id
    | true => exact h.ifCheck .equal (h.pass.andThen (h.failAtPrevious _)) .id
  have hwhole := fun opening assignable =>
    ((h.operand hexpr opening assignable).andThen hloop).andThen (hequal assignable)
  refine Tracks.of_key (·.previous.kind.opening?)
    (fun _ _ hd => congrArg TokenKind.opening? (h.previous hd)) fun found => ?_
  cases found with
  | none =>
    exact ⟨_, _, h.failAtPrevious (.expected .expression), fun d hd => by
      simp [Draft.operandAndConnectives, hd]⟩
  | some opening =>
    exact ⟨_, _, hwhole opening (decide (level ≤ .assignment)), fun d hd => by
      simp [Draft.operandAndConnectives, hd]⟩

end Expressions

/-- **Compiling an expression** keeps the relation, also where more levels of nesting are left. -/
theorem expressionAt {levels levels' : Nat} (hlevels : levels ≤ levels') (level : Precedence) :
    Tracks Rel (expressionAt levels level) (expressionAt levels' level) := by
  induction levels generalizing levels' level with
  | zero =>
    exact .of_not_faultless (steps_expressionAt · 0 level) (steps_expressionAt · levels' level)
      fun hd => h.not_faultless_report hd _ _
  | succ levels ih =>
    obtain ⟨levels', rfl⟩ := Nat.exists_eq_succ_of_ne_zero
      (Nat.ne_of_gt (Nat.lt_of_lt_of_le (Nat.succ_pos _) hlevels))
    exact h.pass.andThen (h.operandAndConnectives (ih (Nat.le_of_succ_le_succ hlevels)) level)

end Abreast

end Draft

end Lox
