import Lox.Proofs.Listing.Walk
import Lox.Proofs.Number.Whole
import Mathlib

/-!
# The columns of a listing

What stands on a line can be read back from it. A column is filled up with blanks in front, and a
blank comes behind it, so a text without blanks can be read from it however long it is. A bar stands
for the line of the byte before, and is no number. A mnemonic has no blank and no line feed; operands
come after a blank.

## Main definitions

* `Listing.mark`: what stands for the source line of an instruction.
* `Listing.words`: what is written about an instruction.

## Main results

* `Listing.row_of_instruction?`: the line of an instruction.
* `Listing.mark_inj`, `Listing.words_inj`: source line and instruction are read back.
* `Listing.row_append_inj`: so they are from a line and what comes behind it.
-/

namespace Lox

namespace Listing

/-! ### Texts and what comes behind them -/

section Texts

variable {stop : Char} {xs xs' rest rest' : List Char}

/-- A text up to a character that is not in it can be told from what comes behind. -/
theorem append_cons_inj (hxs : stop ∉ xs) (hxs' : stop ∉ xs')
    (h : xs ++ stop :: rest = xs' ++ stop :: rest') : xs = xs' ∧ rest = rest' := by
  have htake : ∀ {ys more : List Char}, stop ∉ ys →
      (ys ++ stop :: more).takeWhile (· != stop) = ys := by
    intro ys more hys
    have hall : ∀ c ∈ ys, (c != stop) = true := fun c hc =>
      bne_iff_ne.mpr (ne_of_mem_of_not_mem hc hys)
    rw [List.takeWhile_append_of_pos hall, List.takeWhile_cons_of_neg (by simp), List.append_nil]
  obtain rfl : xs = xs' := by rw [← htake hxs, h, htake hxs']
  exact ⟨rfl, (List.cons.inj (List.append_cancel_left h)).2⟩

/-- Blanks in front of a text can be told from it. -/
theorem blanks_append_inj {m n : Nat} (hne : xs ≠ []) (hne' : xs' ≠ []) (hxs : ' ' ∉ xs)
    (hxs' : ' ' ∉ xs') (h : List.replicate m ' ' ++ xs ++ ' ' :: rest =
      List.replicate n ' ' ++ xs' ++ ' ' :: rest') : xs = xs' ∧ rest = rest' := by
  have hdrop : ∀ {k : Nat} {ys more : List Char}, ys ≠ [] → ' ' ∉ ys →
      (List.replicate k ' ' ++ ys ++ more).dropWhile (· == ' ') = ys ++ more := by
    intro k ys more hys hblank
    obtain ⟨y, ys, rfl⟩ := List.exists_cons_of_ne_nil hys
    have hy : y ≠ ' ' := fun heq => hblank (heq ▸ List.mem_cons_self)
    rw [List.append_assoc, List.dropWhile_append_of_pos fun c hc =>
      beq_iff_eq.mpr (List.eq_of_mem_replicate hc)]
    exact List.dropWhile_cons_of_neg (by simpa using hy)
  refine append_cons_inj hxs hxs' ?_
  rw [← hdrop (k := m) hne hxs, h, hdrop hne' hxs']

end Texts

/-! ### Columns -/

theorem notMem_toString {c : Char} (hc : c.isDigit = false) (n : Nat) : c ∉ (toString n).toList := by
  intro hmem
  rw [Nat.toString_eq_repr, Nat.toList_repr] at hmem
  have hdigit := Nat.isDigit_of_mem_toDigits (by decide) (by decide) hmem
  rw [hc] at hdigit
  exact absurd hdigit (by decide)

theorem toList_toString_ne_nil (n : Nat) : (toString n).toList ≠ [] := by
  rw [Nat.toString_eq_repr, Nat.toList_repr]
  exact Nat.toDigits_ne_nil

theorem toList_padLeft (width : Nat) (fill : Char) (text : String) :
    (padLeft width fill text).toList = List.replicate (width - text.length) fill ++ text.toList := by
  rw [padLeft, String.toList_append, String.toList_ofList]

/-- A text without blanks is read back from its column, if a blank comes behind. -/
theorem padLeft_append_inj {width : Nat} {text text' : String} {rest rest' : List Char}
    (hne : text.toList ≠ []) (hne' : text'.toList ≠ []) (htext : ' ' ∉ text.toList)
    (htext' : ' ' ∉ text'.toList)
    (h : (padLeft width ' ' text).toList ++ ' ' :: rest =
      (padLeft width ' ' text').toList ++ ' ' :: rest') : text = text' ∧ rest = rest' := by
  rw [toList_padLeft, toList_padLeft] at h
  exact (blanks_append_inj hne hne' htext htext' h).imp_left fun heq => String.toList_injective heq

/-- A number is read back from its column. -/
theorem column_append_inj {m n : Nat} {rest rest' : List Char}
    (h : (column m).toList ++ ' ' :: rest = (column n).toList ++ ' ' :: rest') :
    m = n ∧ rest = rest' :=
  (padLeft_append_inj (toList_toString_ne_nil m) (toList_toString_ne_nil n)
    (notMem_toString (by decide) m) (notMem_toString (by decide) n) h).imp_left
      fun heq => Nat.repr_injective heq

theorem column_inj {m n : Nat} (h : (column m).toList = (column n).toList) : m = n :=
  (@column_append_inj m n [] [] (congrArg (· ++ [' ']) h)).1

theorem newline_notMem_column (n : Nat) : '\n' ∉ (column n).toList := by
  rw [column, toList_padLeft]
  simp only [List.mem_append, not_or]
  exact ⟨fun hmem => absurd (List.eq_of_mem_replicate hmem) (by decide), notMem_toString (by decide) n⟩

/-! ### Source lines -/

/-- What stands for a source line: a bar if it is the line of the byte before, and else its number. -/
def mark (previous : Option Nat) (line : Nat) : String :=
  if previous = some line then "|" else toString line

/-- The line of the byte before an offset, if there is one. -/
def lineBefore (c : Chunk) (offset : Nat) : Option Nat :=
  if offset = 0 then none else c.line? (offset - 1)

theorem position_eq {c : Chunk} {offset line : Nat} (h : c.line? offset = some line) :
    position c offset = padLeft 4 '0' (toString offset) ++ " " ++
      (padLeft 4 ' ' (mark (lineBefore c offset) line) ++ " ") := by
  rw [position, h, lineBefore, mark]
  by_cases hzero : offset = 0
  · rw [if_pos hzero, if_neg (by omega), if_neg nofun]
    rfl
  · rw [if_neg hzero]
    by_cases hsame : c.line? (offset - 1) = some line
    · rw [if_pos hsame, if_pos ⟨by omega, hsame.symm⟩]
      rfl
    · rw [if_neg hsame, if_neg fun hboth => hsame hboth.2.symm]
      rfl

theorem mark_ne_nil (previous : Option Nat) (line : Nat) : (mark previous line).toList ≠ [] := by
  rw [mark]
  split
  · decide
  · exact toList_toString_ne_nil line

theorem notMem_mark {c : Char} (hc : c.isDigit = false) (hbar : c ≠ '|') (previous : Option Nat)
    (line : Nat) : c ∉ (mark previous line).toList := by
  rw [mark]
  split
  · simpa using hbar
  · exact notMem_toString hc line

/-- The source line is read back, if that of the byte before is known. -/
theorem mark_inj {previous : Option Nat} {line line' : Nat}
    (h : mark previous line = mark previous line') : line = line' := by
  have hbar : ∀ n : Nat, "|" ≠ toString n := fun n heq =>
    notMem_toString (c := '|') (by decide) n (heq ▸ by decide)
  rw [mark, mark] at h
  by_cases hline : previous = some line
  · by_cases hline' : previous = some line'
    · exact Option.some.inj (hline.symm.trans hline')
    · rw [if_pos hline, if_neg hline'] at h
      exact absurd h (hbar line')
  · by_cases hline' : previous = some line'
    · rw [if_neg hline, if_pos hline'] at h
      exact absurd h.symm (hbar line)
    · rw [if_neg hline, if_neg hline'] at h
      exact Nat.repr_injective h

/-! ### Instructions -/

variable {interner : Interner} {c c' : Chunk} {offset : Nat} {i i' : Instruction}

/-- What is shown for an index of the pool. -/
def shown (interner : Interner) (c : Chunk) (index : Nat) : String :=
  match c.constants[index]? with
  | some value => "'" ++ value.display interner ++ "'"
  | none => "<missing>"

/-- What follows a mnemonic. -/
def operandText (interner : Interner) (c : Chunk) (offset : Nat) (i : Instruction) : String :=
  let blanks := String.ofList (List.replicate (16 - i.op.mnemonic.length) ' ')
  match i.op.operand with
  | .none => ""
  | .slot => blanks ++ " " ++ column i.operand
  | .constant => blanks ++ " " ++ column i.operand ++ " " ++ shown interner c i.operand
  | .forward | .backward => blanks ++ " " ++ column offset ++ " -> " ++ toString (i.target offset)

/-- What is written about an instruction. -/
def words (interner : Interner) (c : Chunk) (offset : Nat) (i : Instruction) : String :=
  i.op.mnemonic ++ operandText interner c offset i

/-- **The line of an instruction.** -/
theorem row_of_instruction? (h : c.instruction? offset = some i) :
    row interner c offset =
      (position c offset ++ (words interner c offset i ++ "\n"), offset + i.size) := by
  refine Prod.ext ?_ (row_snd_of_instruction? h)
  obtain ⟨byte, hbyte, hop, hoperand⟩ := Machine.exists_of_instruction? h
  simp only [row, content, hbyte, hop, instruction, words, operandText]
  cases hkind : i.op.operand with
  | none => simp
  | slot =>
    rw [hkind] at hoperand
    obtain ⟨b, hb, hn⟩ := Option.map_eq_some_iff.mp hoperand
    simp only [hb, hn, operandColumn, String.append_assoc]
  | constant =>
    rw [hkind] at hoperand
    obtain ⟨b, hb, hn⟩ := Option.map_eq_some_iff.mp hoperand
    simp only [hb, hn, shown]
    cases c.constants[i.operand]? <;> simp only [operandColumn, String.append_assoc]
  | forward | backward =>
    rw [hkind] at hoperand
    have hread : c.read16? (offset + 1) = some i.operand := hoperand
    simp only [hread, operandColumn, String.append_assoc, Instruction.target, hkind]

/-- Mnemonics differ, and none has a blank or a line feed. -/
theorem mnemonic_inj {op op' : OpCode} (h : op.mnemonic = op'.mnemonic) : op = op' := by
  have hall : ∀ x ∈ OpCode.all, ∀ y ∈ OpCode.all, x.mnemonic = y.mnemonic → x = y := by decide
  have hmem : ∀ x, x ∈ OpCode.all := fun x => by cases x <;> decide
  exact hall op (hmem op) op' (hmem op') h

theorem notMem_mnemonic {c : Char} (hc : c = ' ' ∨ c = '\n') (op : OpCode) :
    c ∉ op.mnemonic.toList := by
  rcases hc with rfl | rfl <;> cases op <;> decide

/-- What follows a mnemonic is nothing or begins with a blank. -/
theorem operandText_cases (interner : Interner) (c : Chunk) (offset : Nat) (i : Instruction) :
    (i.op.operand = .none ∧ (operandText interner c offset i).toList = []) ∨
      (i.op.operand ≠ .none ∧ ∃ rest, (operandText interner c offset i).toList = ' ' :: rest) := by
  have hblanks : ∀ (n : Nat) (text : List Char),
      ∃ rest, List.replicate n ' ' ++ ' ' :: text = ' ' :: rest := by
    intro n text
    cases n with
    | zero => exact ⟨text, rfl⟩
    | succ n => exact ⟨_, rfl⟩
  rw [operandText]
  cases hkind : i.op.operand with
  | none => exact .inl ⟨rfl, rfl⟩
  | slot | constant | forward | backward =>
    refine .inr ⟨nofun, ?_⟩
    simp only [String.toList_append, String.toList_ofList, List.append_assoc]
    exact hblanks _ _

/-- The mnemonic is read back. -/
theorem op_eq_of_words (h : words interner c offset i = words interner c' offset i') :
    i.op = i'.op := by
  have hwords : ∀ {c : Chunk} {i : Instruction}, ∃ rest, (words interner c offset i ++ " ").toList =
      i.op.mnemonic.toList ++ ' ' :: rest := by
    intro c i
    rw [words, String.append_assoc, String.toList_append, String.toList_append]
    rcases operandText_cases interner c offset i with ⟨-, heq⟩ | ⟨-, rest, heq⟩ <;> rw [heq]
    · exact ⟨[], rfl⟩
    · exact ⟨_, rfl⟩
  obtain ⟨rest, heq⟩ := hwords (c := c) (i := i)
  obtain ⟨rest', heq'⟩ := hwords (c := c') (i := i')
  rw [h] at heq
  exact mnemonic_inj (String.toList_injective (append_cons_inj (notMem_mnemonic (.inl rfl) _)
    (notMem_mnemonic (.inl rfl) _) (heq.symm.trans heq')).1)

/-- **The instruction is read back** from what is written about it. -/
theorem words_inj (hi : i.Encodable) (hi' : i'.Encodable)
    (h : words interner c offset i = words interner c' offset i') : i = i' := by
  have hop := op_eq_of_words h
  obtain ⟨op, operand⟩ := i
  obtain ⟨op', operand'⟩ := i'
  obtain rfl : op = op' := hop
  rw [Instruction.Encodable] at hi hi'
  rw [words, words, String.append_right_inj, operandText, operandText] at h
  suffices hoperand : operand = operand' by rw [hoperand]
  cases hkind : op.operand with
  | none =>
    simp only [hkind] at hi hi'
    exact hi.trans hi'.symm
  | slot =>
    simp only [hkind, String.append_right_inj] at h
    exact column_inj (congrArg String.toList h)
  | constant =>
    simp only [hkind, String.append_assoc, String.append_right_inj] at h
    have hlist := congrArg String.toList h
    simp only [String.toList_append] at hlist
    exact (column_append_inj hlist).1
  | forward | backward =>
    simp only [hkind, String.append_right_inj] at h
    have htarget := Int.repr_injective h
    simp only [Instruction.target, hkind] at htarget
    omega

/-! ### Lines -/

/-- No string of the pool goes over more than one line. -/
def OnOneLine (interner : Interner) (c : Chunk) : Prop :=
  ∀ symbol, .string symbol ∈ c.constants.toList → '\n' ∉ (interner.text symbol).toList

theorem newline_notMem_shown (h : OnOneLine interner c) (index : Nat) :
    '\n' ∉ (shown interner c index).toList := by
  rw [shown]
  split
  · next value hvalue =>
    have hdisplay : '\n' ∉ (value.display interner).toList := by
      cases value with
      | nil =>
        show '\n' ∉ "nil".toList
        decide
      | bool b =>
        show '\n' ∉ (if b then "true" else "false").toList
        cases b <;> decide
      | number x => exact Number.newline_notMem_write x
      | string symbol => exact h symbol (Array.mem_toList_iff.mpr (Array.mem_of_getElem? hvalue))
    simpa using hdisplay
  · decide

theorem newline_notMem_repr (n : Int) : '\n' ∉ n.repr.toList := by
  rw [Int.repr_eq_if]
  split
  · exact notMem_toString (by decide) _
  · simpa using notMem_toString (c := '\n') (by decide) _

theorem newline_notMem_words (h : OnOneLine interner c) (offset : Nat) (i : Instruction) :
    '\n' ∉ (words interner c offset i).toList := by
  have hblanks : ∀ n : Nat, '\n' ∉ List.replicate n ' ' := fun n hmem =>
    absurd (List.eq_of_mem_replicate hmem) (by decide)
  have hshown := newline_notMem_shown h i.operand
  rw [words, operandText]
  cases hkind : i.op.operand with
  | none => simpa using notMem_mnemonic (.inr rfl) i.op
  | slot => simp [notMem_mnemonic, hblanks, newline_notMem_column]
  | constant => simp [notMem_mnemonic, hblanks, newline_notMem_column, hshown]
  | forward | backward =>
    simp [notMem_mnemonic, hblanks, newline_notMem_column, newline_notMem_repr]

/-- **Instruction and source line are read back** from a line and what comes behind it. -/
theorem row_append_inj {line line' : Nat} {rest rest' : List Char} (honeLine : OnOneLine interner c)
    (honeLine' : OnOneLine interner c') (hi : c.instruction? offset = some i)
    (hi' : c'.instruction? offset = some i') (hfits : i.Encodable) (hfits' : i'.Encodable)
    (hline : c.line? offset = some line) (hline' : c'.line? offset = some line')
    (hbefore : lineBefore c offset = lineBefore c' offset)
    (h : (row interner c offset).1.toList ++ rest = (row interner c' offset).1.toList ++ rest') :
    i = i' ∧ line = line' ∧ rest = rest' := by
  have hblank : " ".toList = [' '] := rfl
  have hend : "\n".toList = ['\n'] := rfl
  rw [row_of_instruction? hi, row_of_instruction? hi', position_eq hline, position_eq hline',
    hbefore] at h
  simp only [String.toList_append, List.append_assoc, List.append_cancel_left_eq, hblank, hend,
    List.cons_append, List.nil_append, List.cons_inj_right] at h
  obtain ⟨hmark, hwords⟩ := padLeft_append_inj (mark_ne_nil _ _) (mark_ne_nil _ _)
    (notMem_mark (by decide) (by decide) _ _) (notMem_mark (by decide) (by decide) _ _) h
  obtain ⟨hsame, hrest⟩ := append_cons_inj (newline_notMem_words honeLine offset i)
    (newline_notMem_words honeLine' offset i') hwords
  exact ⟨words_inj hfits hfits' (String.toList_injective hsame), mark_inj hmark, hrest⟩

end Listing

end Lox
