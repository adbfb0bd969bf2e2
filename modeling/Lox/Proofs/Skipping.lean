import Lox.Compilation.Counted
import Lox.Proofs.Draft.Invariants

/-!
# What is nested too deeply is skipped whole

A statement is found the end of by two counters only, of the parentheses and the braces that are
open. Where neither is, a semicolon or a closing brace ends it, unless an `else` follows. This finds
the end of every statement of the grammar: inside parentheses and braces nothing ends it, the tokens
of an expression leave both counters as they were, and every statement ends in a semicolon or a
closing brace outside of both.

A block ends at the brace that closes it, whatever stands in between, tokens that are errors too:
while the draft is panicking these are passed silently.

## Main definitions

* `Draft.Leads`: what passing some tokens does to the counters; `Draft.Continues` and `Draft.Ends`
  are the two things it can lead to.
* `Braced`: tokens whose braces are balanced.
* `Draft.skippedTo`: the draft that has skipped something.

## Main results

* `Stmt.Derives.ends`: the end of a statement is found.
* `Draft.skipStatement_of_derives`, `Draft.skipBlock_of_braced`: what is skipped.
* `Counted.skips_whole`: what is nested too deeply is reported once and skipped whole.
-/

namespace Lox

namespace Draft

/-! ### Passing tokens -/

/-- The draft between other tokens: the one just passed and those ahead. -/
def moved (d : Draft) (previous : Token) (ahead : List Token) : Draft := { d with previous, ahead }

section Moved

variable {d : Draft} {p t : Token} {ahead : List Token}

theorem check_moved (kind : TokenKind) :
    (d.moved p ahead).check kind = ((ahead.headD d.last).kind == kind) := rfl

/-- A token that no error follows is passed. -/
theorem advance_moved (h : ∀ u ∈ ahead, u.kind.error? = none) :
    (d.moved p (t :: ahead)).advance = d.moved t ahead :=
  comeTo_eq_of_error? _ ahead fun u hu => h u (List.mem_of_mem_head? hu)

end Moved

/-- The number of open parentheses after a token. -/
def parensAfter (parens : Nat) : TokenKind → Nat
  | .leftParen => parens + 1
  | .rightParen => parens - 1
  | _ => parens

/-- The number of open braces after a token. -/
def bracesAfter (braces : Nat) : TokenKind → Nat
  | .leftBrace => braces + 1
  | .rightBrace => braces - 1
  | _ => braces

/-- At the end of a statement: goes on with an `else` branch, if there is one. -/
def passBranch (bound : List Token) (d : Draft) : Draft :=
  if d.check .kwElse then passStatement bound 0 0 d.advance else d

/-- Passing a statement by a token. -/
theorem passStatement_moved {d : Draft} {p t b : Token} {ahead bound : List Token}
    {parens braces : Nat} (h : ∀ u ∈ ahead, u.kind.error? = none) (hend : t.kind ≠ .endOfSource)
    (hbrace : t.kind = .rightBrace → braces ≠ 0) :
    passStatement (b :: bound) parens braces (d.moved p (t :: ahead)) =
      if parensAfter parens t.kind = 0 ∧ bracesAfter braces t.kind = 0 ∧
          (t.kind = .semicolon ∨ t.kind = .rightBrace) then passBranch bound (d.moved t ahead)
      else passStatement bound (parensAfter parens t.kind) (bracesAfter braces t.kind)
        (d.moved t ahead) := by
  have hkind : (d.moved p (t :: ahead)).current.kind = t.kind := rfl
  rw [passStatement, hkind, if_neg (by rintro (h | ⟨h, hzero⟩); exacts [hend h, hbrace h hzero]),
    advance_moved h]
  show (if parensAfter parens t.kind = 0 ∧ bracesAfter braces t.kind = 0 ∧
      (t.kind = .semicolon ∨ t.kind = .rightBrace) then
        if (d.moved t ahead).check .kwElse then
          passStatement bound (parensAfter parens t.kind) (bracesAfter braces t.kind)
            (d.moved t ahead).advance
        else d.moved t ahead
      else _) = _
  split
  · next hended => rw [passBranch, hended.1, hended.2.1]
  · rfl

/-! ### From count to count -/

/-- Passing the tokens from some counts of open parentheses and braces on leads to what is done
next. The list that bounds the number of tokens stays long enough. -/
structure Leads (parens braces : Nat) (ts : List Token) (next : List Token → Draft → Draft) :
    Prop where
  error? : ∀ t ∈ ts, t.kind.error? = none
  pass (d : Draft) (p : Token) (rest bound : List Token) (hrest : ∀ t ∈ rest, t.kind.error? = none)
    (hbound : (ts ++ rest).length ≤ bound.length) :
    ∃ bound' : List Token, rest.length ≤ bound'.length ∧
      passStatement bound parens braces (d.moved p (ts ++ rest)) =
        next bound' (d.moved (ts.getLastD p) rest)

/-- With the tokens the statement does not end, but comes to other counts. -/
abbrev Continues (parens braces : Nat) (ts : List Token) (parens' braces' : Nat) : Prop :=
  Leads parens braces ts (passStatement · parens' braces')

/-- With the last of the tokens a statement ends. -/
abbrev Ends (parens braces : Nat) (ts : List Token) : Prop := Leads parens braces ts passBranch

section Counts

variable {m n m' n' : Nat} {t : Token} {ts us : List Token} {next : List Token → Draft → Draft}

theorem getLastD_append (ts us : List Token) (p : Token) :
    (ts ++ us).getLastD p = us.getLastD (ts.getLastD p) := by
  induction ts generalizing p with
  | nil => rfl
  | cons t ts ih => rw [List.cons_append, List.getLastD_cons, ih, List.getLastD_cons]

theorem Continues.nil : Continues m n [] m n :=
  ⟨List.forall_mem_nil _, fun _ _ _ bound _ hbound => ⟨bound, hbound, rfl⟩⟩

/-- A list that bounds the number of tokens has something for the first of them. -/
theorem exists_cons_of_bound {bound : List Token} (h : (t :: ts).length ≤ bound.length) :
    ∃ b bound', bound = b :: bound' ∧ ts.length ≤ bound'.length := by
  cases bound with
  | nil => exact absurd h (Nat.not_succ_le_zero _)
  | cons b bound => exact ⟨b, bound, rfl, Nat.le_of_succ_le_succ h⟩

/-- What a token leads to. -/
theorem Leads.token {kind : TokenKind} (h : t.kind = kind) (herror : kind.error? = none)
    (hend : kind ≠ .endOfSource) (hbrace : kind = .rightBrace → n ≠ 0)
    (hnext : ∀ bound d, (if parensAfter m kind = 0 ∧ bracesAfter n kind = 0 ∧
      (kind = .semicolon ∨ kind = .rightBrace) then passBranch bound d
      else passStatement bound (parensAfter m kind) (bracesAfter n kind) d) = next bound d) :
    Leads m n [t] next := by
  subst h
  refine ⟨by simpa using herror, fun d p rest bound hrest hbound => ?_⟩
  obtain ⟨b, bound, rfl, hmore⟩ := exists_cons_of_bound hbound
  refine ⟨bound, hmore, ?_⟩
  rw [List.singleton_append, passStatement_moved hrest hend hbrace, hnext]
  rfl

theorem Continues.append (hts : Continues m n ts m' n') (hus : Leads m' n' us next) :
    Leads m n (ts ++ us) next := by
  refine ⟨List.forall_mem_append.mpr ⟨hts.error?, hus.error?⟩,
    fun d p rest bound hrest hbound => ?_⟩
  rw [List.append_assoc] at hbound ⊢
  obtain ⟨bound, hbound, heq⟩ := hts.pass d p (us ++ rest) bound
    (List.forall_mem_append.mpr ⟨hus.error?, hrest⟩) hbound
  obtain ⟨bound, hbound, heq'⟩ := hus.pass d (ts.getLastD p) rest bound hrest hbound
  refine ⟨bound, hbound, ?_⟩
  rw [heq, heq', getLastD_append]

theorem Continues.cons (ht : Continues m n [t] m' n') (hts : Leads m' n' ts next) :
    Leads m n (t :: ts) next :=
  ht.append hts

/-- A statement goes on with the branch behind an `else`. -/
theorem Ends.orElse (hts : Ends m n ts) (ht : t.kind = .kwElse) (hus : Leads 0 0 us passBranch) :
    Ends m n (ts ++ t :: us) := by
  have hlater : ∀ u ∈ t :: us, u.kind.error? = none :=
    List.forall_mem_cons.mpr ⟨by rw [ht]; rfl, hus.error?⟩
  refine ⟨List.forall_mem_append.mpr ⟨hts.error?, hlater⟩, fun d p rest bound hrest hbound => ?_⟩
  rw [List.append_assoc] at hbound ⊢
  obtain ⟨bound, hbound, heq⟩ := hts.pass d p (t :: us ++ rest) bound
    (List.forall_mem_append.mpr ⟨hlater, hrest⟩) hbound
  obtain ⟨bound, hbound, heq'⟩ := hus.pass d t rest bound hrest
    (Nat.le_trans (Nat.le_succ _) hbound)
  refine ⟨bound, hbound, ?_⟩
  have helse : (d.moved (ts.getLastD p) (t :: (us ++ rest))).check .kwElse = true := by
    rw [check_moved, List.headD_cons, ht]
    rfl
  rw [heq, List.cons_append, passBranch, if_pos helse,
    advance_moved (List.forall_mem_append.mpr ⟨hus.error?, hrest⟩), heq', getLastD_append,
    List.getLastD_cons]

/-! ### Tokens -/

/-- Whether tokens of a kind count for nothing. -/
def isPlain : TokenKind → Bool
  | .leftParen | .rightParen | .leftBrace | .rightBrace | .semicolon | .invalid _ | .endOfSource =>
    false
  | _ => true

theorem of_isPlain {kind : TokenKind} (h : isPlain kind) :
    kind.error? = none ∧ kind ≠ .endOfSource ∧ kind ≠ .rightBrace ∧ kind ≠ .semicolon ∧
      parensAfter m kind = m ∧ bracesAfter n kind = n := by
  cases kind <;> first
    | exact Bool.noConfusion h
    | exact ⟨rfl, nofun, nofun, nofun, rfl, rfl⟩

theorem Continues.plain {kind : TokenKind} (h : t.kind = kind) (hplain : isPlain kind) :
    Continues m n [t] m n := by
  obtain ⟨herror, hend, hbrace, hsemicolon, hparens, hbraces⟩ :=
    of_isPlain (m := m) (n := n) hplain
  exact Leads.token h herror hend (absurd · hbrace) fun bound d => by
    rw [hparens, hbraces, if_neg fun hended => hended.2.2.elim hsemicolon hbrace]

theorem Continues.leftParen (h : t.kind = .leftParen) : Continues m n [t] (m + 1) n :=
  Leads.token h rfl nofun nofun fun _ _ => if_neg (by simp)

theorem Continues.rightParen (h : t.kind = .rightParen) : Continues (m + 1) n [t] m n :=
  Leads.token h rfl nofun nofun fun _ _ => if_neg (by simp)

theorem Continues.leftBrace (h : t.kind = .leftBrace) : Continues m n [t] m (n + 1) :=
  Leads.token h rfl nofun nofun fun _ _ => if_neg (by simp)

/-- A brace that closes a block inside another one. -/
theorem Continues.rightBrace (h : t.kind = .rightBrace) : Continues m (n + 2) [t] m (n + 1) :=
  Leads.token h rfl nofun (by simp) fun _ _ => if_neg (by simp [bracesAfter])

/-- A semicolon inside parentheses or braces. -/
theorem Continues.semicolon (h : t.kind = .semicolon) (hinside : m ≠ 0 ∨ n ≠ 0) :
    Continues m n [t] m n :=
  Leads.token h rfl nofun nofun fun _ _ =>
    if_neg fun hended => hinside.elim (· hended.1) (· hended.2.1)

theorem Ends.rightBrace (h : t.kind = .rightBrace) : Ends 0 1 [t] :=
  Leads.token h rfl nofun (by simp) fun _ _ => if_pos ⟨rfl, rfl, .inr rfl⟩

theorem Ends.semicolon (h : t.kind = .semicolon) : Ends 0 0 [t] :=
  Leads.token h rfl nofun nofun fun _ _ => if_pos ⟨rfl, rfl, .inl rfl⟩

/-- A keyword, something in parentheses, and what comes behind it. -/
theorem Leads.guarded {kind : TokenKind} {opening closing : Token} (keyword : t.kind = kind)
    (hplain : isPlain kind) (hopening : opening.kind = .leftParen)
    (hts : Continues (m + 1) n ts (m + 1) n) (hclosing : closing.kind = .rightParen)
    (hus : Leads m n us next) : Leads m n (t :: opening :: (ts ++ closing :: us)) next :=
  (Continues.plain keyword hplain).cons ((Continues.leftParen hopening).cons
    (hts.append ((Continues.rightParen hclosing).cons hus)))

end Counts

end Draft

/-! ### Expressions -/

open Draft

variable {m n : Nat} {ts : List Token}

/-- The tokens of an expression leave the counts as they were. -/
theorem Expr.Derives.continues {level : Precedence} {e : Expr} (h : e.Derives level ts) :
    Continues m n ts m n := by
  have hliteral : ∀ value : Literal, isPlain value.token := by
    intro value
    cases value with
    | nil => rfl
    | bool b => cases b <;> rfl
  have hunary : ∀ op : UnaryOp, isPlain op.token := fun op => by cases op <;> rfl
  have hbinary : ∀ op : BinaryOp, isPlain op.token := fun op => by cases op <;> rfl
  induction h generalizing m with
  | literal kind => exact .plain kind (hliteral _)
  | number kind | string kind | «variable» kind => exact .plain kind rfl
  | assign loose name sign right ih =>
    exact (Continues.plain name rfl).cons ((Continues.plain sign rfl).cons ih)
  | group opening derives closing ih =>
    exact (Continues.leftParen opening).cons (ih.append (Continues.rightParen closing))
  | unary loose sign derives ih => exact (Continues.plain sign (hunary _)).cons ih
  | binary loose lefts sign rights ihl ihr =>
    exact ihl.append ((Continues.plain sign (hbinary _)).cons ihr)
  | and loose lefts sign rights ihl ihr | or loose lefts sign rights ihl ihr =>
    exact ihl.append ((Continues.plain sign rfl).cons ihr)

theorem Expr.DerivesOption.continues {e : Option Expr} (h : Expr.DerivesOption e ts) :
    Continues m n ts m n := by
  cases h with
  | none => exact .nil
  | some derives => exact derives.continues

theorem Decl.DerivesVar.continues {name : String} {value : Option Expr}
    (h : Decl.DerivesVar name value ts) (hinside : m ≠ 0 ∨ n ≠ 0) : Continues m n ts m n := by
  cases h with
  | plain name closing =>
    exact (Continues.plain name rfl).cons (Continues.semicolon closing hinside)
  | initialized name sign value closing =>
    exact (Continues.plain name rfl).cons ((Continues.plain sign rfl).cons
      (value.continues.append (Continues.semicolon closing hinside)))

/-- The first clause of a for statement is inside parentheses. -/
theorem ForInit.Derives.continues {first : ForInit} (h : first.Derives ts) :
    Continues (m + 1) n ts (m + 1) n := by
  have hinside : m + 1 ≠ 0 ∨ n ≠ 0 := .inl (Nat.succ_ne_zero m)
  cases h with
  | none closing => exact Continues.semicolon closing hinside
  | var keyword derives =>
    exact (Continues.plain keyword rfl).cons (derives.continues hinside)
  | expression derives closing =>
    exact derives.continues.append (Continues.semicolon closing hinside)

/-- A for statement up to its body, and what comes behind it: the semicolons are inside the
parentheses. -/
theorem ForInit.Derives.leads {first : ForInit} {condition increment : Option Expr}
    {keyword opening semicolon closing : Token} {fs cs is us : List Token}
    {next : List Token → Draft → Draft} (hkeyword : keyword.kind = .kwFor)
    (hopening : opening.kind = .leftParen) (initial : first.Derives fs)
    (test : Expr.DerivesOption condition cs) (hsemicolon : semicolon.kind = .semicolon)
    (step : Expr.DerivesOption increment is) (hclosing : closing.kind = .rightParen)
    (hus : Leads m n us next) :
    Leads m n (keyword :: opening :: (fs ++ (cs ++ semicolon :: (is ++ closing :: us)))) next := by
  have hclauses : Continues (m + 1) n (fs ++ (cs ++ semicolon :: is)) (m + 1) n :=
    initial.continues.append (test.continues.append
      ((Continues.semicolon hsemicolon (.inl (Nat.succ_ne_zero m))).cons step.continues))
  have hguarded := Leads.guarded hkeyword rfl hopening hclauses hclosing hus
  simpa only [List.append_assoc, List.cons_append] using hguarded

/-! ### Statements -/

mutual

/-- Inside braces no statement ends anything. -/
theorem Stmt.Derives.continues {s : Stmt} {m n : Nat} {ts : List Token} (h : s.Derives ts) :
    Continues m (n + 1) ts m (n + 1) := by
  have hinside : m ≠ 0 ∨ n + 1 ≠ 0 := .inr (Nat.succ_ne_zero n)
  cases h with
  | expression value closing =>
    exact value.continues.append (Continues.semicolon closing hinside)
  | print keyword value closing =>
    exact (Continues.plain keyword rfl).cons
      (value.continues.append (Continues.semicolon closing hinside))
  | block opening body closing =>
    exact (Continues.leftBrace opening).cons
      ((Decl.DerivesAll.continues body).append (Continues.rightBrace closing))
  | ifThen keyword opening condition closing body
  | whileLoop keyword opening condition closing body =>
    exact .guarded keyword rfl opening condition.continues closing (Stmt.Derives.continues body)
  | ifElse keyword opening condition closing body nearest otherwise other =>
    exact .guarded keyword rfl opening condition.continues closing
      ((Stmt.Derives.continues body).append
        ((Continues.plain otherwise rfl).cons (Stmt.Derives.continues other)))
  | forLoop keyword opening initial test semicolon step closing body =>
    exact initial.leads keyword opening test semicolon step closing (Stmt.Derives.continues body)

theorem Decl.Derives.continues {d : Decl} {m n : Nat} {ts : List Token} (h : d.Derives ts) :
    Continues m (n + 1) ts m (n + 1) := by
  cases h with
  | var keyword derives =>
    exact (Continues.plain keyword rfl).cons (derives.continues (.inr (Nat.succ_ne_zero n)))
  | statement derives => exact Stmt.Derives.continues derives

theorem Decl.DerivesAll.continues {ds : List Decl} {m n : Nat} {ts : List Token}
    (h : Decl.DerivesAll ds ts) : Continues m (n + 1) ts m (n + 1) := by
  cases h with
  | nil => exact .nil
  | cons head tail => exact (Decl.Derives.continues head).append (Decl.DerivesAll.continues tail)

end

/-- **The end of a statement is found**: outside parentheses and braces a statement ends with its
last token. -/
theorem Stmt.Derives.ends {s : Stmt} {ts : List Token} (h : s.Derives ts) : Ends 0 0 ts := by
  cases h with
  | expression value closing => exact value.continues.append (Ends.semicolon closing)
  | print keyword value closing =>
    exact (Continues.plain keyword rfl).cons (value.continues.append (Ends.semicolon closing))
  | block opening body closing =>
    exact (Continues.leftBrace opening).cons (body.continues.append (Ends.rightBrace closing))
  | ifThen keyword opening condition closing body
  | whileLoop keyword opening condition closing body =>
    exact .guarded keyword rfl opening condition.continues closing body.ends
  | ifElse keyword opening condition closing body nearest otherwise other =>
    exact .guarded keyword rfl opening condition.continues closing
      (body.ends.orElse otherwise other.ends)
  | forLoop keyword opening initial test semicolon step closing body =>
    exact initial.leads keyword opening test semicolon step closing body.ends

namespace Draft

variable {d : Draft} {rest : List Token}

/-- The draft that has reported the token just passed and skipped what it starts. Nothing else has
changed. -/
def skippedTo (d : Draft) (previous : Token) (rest : List Token) : Draft :=
  { d with
    previous, ahead := rest,
    diagnostics := d.diagnostics.push (.ofToken d.previous .nestingTooDeep) }

/-- The draft that has reported the token just passed, and is to skip what it starts. -/
def tooDeep (d : Draft) : Draft :=
  { d with
    panicking := true, diagnostics := d.diagnostics.push (.ofToken d.previous .nestingTooDeep) }

theorem skip_eq {pass : Draft → Draft} {previous : Token} (hcalm : d.panicking = false)
    (hpass : pass d.tooDeep = d.tooDeep.moved previous rest) :
    d.skip pass = d.skippedTo previous rest := by
  have hreport : d.failAtPrevious .nestingTooDeep = d.tooDeep := by
    rw [failAtPrevious, report, hcalm, if_neg (by decide)]
    rfl
  rw [skip, hreport, hpass, skippedTo]
  rfl

/-- **A statement is skipped whole**, if no `else` follows. -/
theorem skipStatement_of_derives {s : Stmt} {ts : List Token} (hs : s.Derives (d.previous :: ts))
    (hkeyword : isPlain d.previous.kind) (hahead : d.ahead = ts ++ rest)
    (hrest : ∀ t ∈ rest, t.kind.error? = none) (helse : (rest.headD d.last).kind ≠ .kwElse)
    (hcalm : d.panicking = false) : d.skipStatement = d.skippedTo (ts.getLastD d.previous) rest := by
  refine skip_eq hcalm ?_
  obtain ⟨herror, hend, hbrace, hsemicolon, hparens, hbraces⟩ :=
    of_isPlain (m := 0) (n := 0) hkeyword
  have hends := hs.ends
  have hlater : ∀ t ∈ ts ++ rest, t.kind.error? = none :=
    List.forall_mem_append.mpr ⟨(List.forall_mem_cons.mp hends.error?).2, hrest⟩
  -- Before the keyword nothing is open either, so that the statement can be passed from there.
  have hbefore : passStatement d.ahead 0 0 d.tooDeep =
      passStatement (d.previous :: d.ahead) 0 0
        (d.tooDeep.moved d.previous (d.previous :: ts ++ rest)) := by
    rw [List.cons_append, passStatement_moved hlater hend (absurd · hbrace), hparens, hbraces,
      if_neg fun hended => hended.2.2.elim hsemicolon hbrace, ← hahead]
    rfl
  obtain ⟨bound, -, heq⟩ := hends.pass d.tooDeep d.previous rest (d.previous :: d.ahead) hrest
    (Nat.le_of_eq (by rw [hahead, List.cons_append]))
  show passStatement d.ahead 0 0 d.tooDeep = _
  rw [hbefore, heq, passBranch, if_neg, List.getLastD_cons]
  rw [check_moved]
  exact fun hcheck => helse (eq_of_beq hcheck)

end Draft

/-! ### Blocks -/

/-- Tokens whose braces are balanced. They may be errors. -/
inductive Braced : List Token → Prop where
  | nil : Braced []
  | token {t : Token} {ts : List Token} (kind : t.kind ∉ [.leftBrace, .rightBrace, .endOfSource])
      (rest : Braced ts) : Braced (t :: ts)
  | nested {t u : Token} {ts us : List Token} (opening : t.kind = .leftBrace) (inside : Braced ts)
      (closing : u.kind = .rightBrace) (rest : Braced us) : Braced (t :: (ts ++ u :: us))

namespace Draft

variable {d : Draft} {p t b : Token} {ts ahead rest bound : List Token}

/-- The tokens from the first on that is no error. -/
def pastErrors (ts : List Token) : List Token := ts.dropWhile (·.kind.error?.isSome)

theorem pastErrors_cons_of_error? (h : t.kind.error? ≠ none) :
    pastErrors (t :: ts) = pastErrors ts :=
  List.dropWhile_cons_of_pos (Option.isSome_iff_ne_none.mpr h)

theorem pastErrors_cons (h : t.kind.error? = none) : pastErrors (t :: ts) = t :: ts :=
  List.dropWhile_cons_of_neg (by rw [h]; decide)

/-- A panicking draft passes errors silently. -/
theorem comeTo_eq_pastErrors (h : d.panicking = true) :
    d.comeTo ts = { d with ahead := pastErrors ts } := by
  induction ts with
  | nil => rfl
  | cons t ts ih =>
    rw [comeTo]
    split
    · next hkind =>
      have herror : t.kind.error? ≠ none := by
        rw [hkind]
        exact Option.some_ne_none _
      rw [report, if_pos h, ih, pastErrors_cons_of_error? herror]
    · next hkind =>
      have herror : t.kind.error? = none := by
        cases hcase : t.kind with
        | invalid cause => exact absurd hcase (hkind cause)
        | _ => rfl
      rw [pastErrors_cons herror]

/-- Passing a block by a token. -/
theorem passBlock_moved {braces : Nat} (h : d.panicking = true) (hend : t.kind ≠ .endOfSource) :
    passBlock (b :: bound) braces (d.moved p (t :: ahead)) =
      if bracesAfter braces t.kind = 0 then d.moved t (pastErrors ahead)
      else passBlock bound (bracesAfter braces t.kind) (d.moved t (pastErrors ahead)) := by
  have hadvance : (d.moved p (t :: ahead)).advance = d.moved t (pastErrors ahead) :=
    comeTo_eq_pastErrors h
  have hcheck : (d.moved p (t :: ahead)).check .endOfSource = false := by
    rw [check_moved]
    exact beq_eq_false_iff_ne.mpr hend
  rw [passBlock, hcheck, if_neg (by decide), hadvance]
  rfl

/-- Passing a block by a token that leaves a brace open. -/
theorem passBlock_moved_of_open {braces n : Nat} (h : d.panicking = true)
    (hend : t.kind ≠ .endOfSource) (hopen : bracesAfter braces t.kind = n + 1) :
    passBlock (b :: bound) braces (d.moved p (t :: ahead)) =
      passBlock bound (n + 1) (d.moved t (pastErrors ahead)) := by
  rw [passBlock_moved h hend, hopen, if_neg (Nat.succ_ne_zero n)]

theorem bracesAfter_of_ne {n : Nat} {kind : TokenKind} (hleft : kind ≠ .leftBrace)
    (hright : kind ≠ .rightBrace) : bracesAfter n kind = n := by
  cases kind <;> first
    | rfl
    | contradiction

/-- **Inside a block, tokens with balanced braces are passed.** -/
theorem exists_passBlock_braced (hts : Braced ts) (h : d.panicking = true) {n : Nat}
    (hbound : (ts ++ rest).length ≤ bound.length) :
    ∃ (p' : Token) (bound' : List Token), rest.length ≤ bound'.length ∧
      passBlock bound (n + 1) (d.moved p (pastErrors (ts ++ rest))) =
        passBlock bound' (n + 1) (d.moved p' (pastErrors rest)) := by
  induction hts generalizing n p bound rest with
  | nil => exact ⟨p, bound, hbound, rfl⟩
  | @token t ts kind _ ih =>
    simp only [List.mem_cons, List.not_mem_nil, or_false, not_or] at kind
    obtain ⟨hleft, hright, hend⟩ := kind
    by_cases herror : t.kind.error? = none
    · obtain ⟨b, bound, rfl, hmore⟩ := exists_cons_of_bound hbound
      obtain ⟨p', bound', hbound', heq⟩ := ih (p := t) (n := n) hmore
      refine ⟨p', bound', hbound', ?_⟩
      rw [List.cons_append, pastErrors_cons herror,
        passBlock_moved_of_open h hend (bracesAfter_of_ne hleft hright), heq]
    · rw [List.cons_append, pastErrors_cons_of_error? herror]
      exact ih (Nat.le_of_succ_le hbound)
  | @nested t u ts us opening inside closing _ ihInside ihRest =>
    have hsplit : t :: (ts ++ u :: us) ++ rest = t :: (ts ++ u :: (us ++ rest)) := by simp
    rw [hsplit] at hbound ⊢
    obtain ⟨b, bound, rfl, hmore⟩ := exists_cons_of_bound hbound
    obtain ⟨p₁, bound₁, hbound₁, heqInside⟩ := ihInside (p := t) (n := n + 1) hmore
    obtain ⟨b₁, bound₁, rfl, hmore₁⟩ := exists_cons_of_bound hbound₁
    obtain ⟨p₂, bound₂, hbound₂, heqRest⟩ := ihRest (p := u) (n := n) hmore₁
    refine ⟨p₂, bound₂, hbound₂, ?_⟩
    rw [pastErrors_cons (by rw [opening]; rfl),
      passBlock_moved_of_open h (by rw [opening]; decide) (by rw [opening]; rfl), heqInside,
      pastErrors_cons (by rw [closing]; rfl),
      passBlock_moved_of_open h (by rw [closing]; decide) (by rw [closing]; rfl), heqRest]

/-- What closes a block is the last token passed. -/
theorem passBlock_of_braced {close : Token} (hts : Braced ts) (hclose : close.kind = .rightBrace)
    (h : d.panicking = true) (hrest : ∀ t ∈ rest, t.kind.error? = none)
    (hbound : (ts ++ close :: rest).length ≤ bound.length) :
    passBlock bound 1 (d.moved p (pastErrors (ts ++ close :: rest))) = d.moved close rest := by
  obtain ⟨p', bound', hbound', heq⟩ := exists_passBlock_braced (p := p) (n := 0) hts h hbound
  obtain ⟨b, bound', rfl, -⟩ := exists_cons_of_bound hbound'
  have hlast : bracesAfter 1 close.kind = 0 := by
    rw [hclose]
    rfl
  have hproper : pastErrors rest = rest := by
    cases rest with
    | nil => rfl
    | cons t rest => exact pastErrors_cons (hrest t List.mem_cons_self)
  rw [heq, pastErrors_cons (by rw [hclose]; rfl), passBlock_moved h (by rw [hclose]; decide),
    if_pos hlast, hproper]

/-- **A block is skipped whole.** -/
theorem skipBlock_of_braced {close : Token} (hts : Braced ts) (hclose : close.kind = .rightBrace)
    (hahead : d.ahead = ts ++ close :: rest) (hrest : ∀ t ∈ rest, t.kind.error? = none)
    (hcalm : d.panicking = false) : d.skipBlock = d.skippedTo close rest := by
  refine skip_eq hcalm ?_
  have hstart : d.tooDeep = d.tooDeep.moved d.previous (ts ++ close :: rest) := by
    rw [← hahead]
    rfl
  show passBlock d.ahead 1 d.tooDeep = _
  rw [hahead, hstart]
  -- Only the first token can be an error that has not been come past.
  by_cases hfirst : pastErrors (ts ++ close :: rest) = ts ++ close :: rest
  · have heq := passBlock_of_braced (d := d.tooDeep) (p := d.previous) hts hclose rfl hrest
      (Nat.le_refl _)
    rw [hfirst] at heq
    exact heq
  · cases hts with
    | nil => exact absurd (pastErrors_cons (by rw [hclose]; rfl)) hfirst
    | @token t ts kind inside =>
      have herror : t.kind.error? ≠ none := fun herror => hfirst (pastErrors_cons herror)
      simp only [List.mem_cons, List.not_mem_nil, or_false, not_or] at kind
      obtain ⟨hleft, hright, hend⟩ := kind
      rw [List.cons_append, passBlock_moved_of_open rfl hend (bracesAfter_of_ne hleft hright)]
      exact passBlock_of_braced inside hclose rfl hrest (Nat.le_refl _)
    | nested opening => exact absurd (pastErrors_cons (by rw [opening]; rfl)) hfirst

end Draft

/-! ### With a counter -/

namespace Counted

variable {limit patience active : Nat} {compile : Nat → Counted → Counted} {s : Counted}
  {rest : List Token}

/-- **What is nested too deeply is reported once and skipped whole**, by a draft that is not
panicking. A statement with a body is reported at its keyword where less than two levels are left,
and a block at its brace where none is left. Nothing of them is compiled, whatever they are made of:
the report is all there is, and the draft comes to what follows. Statements are followed by no
`else`; the tokens of a block may be errors, as long as its braces are balanced. -/
theorem skips_whole (hcalm : s.draft.panicking = false) (hrest : ∀ t ∈ rest, t.kind.error? = none) :
    (∀ (stmt : Stmt) (keyword : Token) (ts : List Token), stmt.Derives (keyword :: ts) →
      keyword.kind ∈ [.kwIf, .kwWhile, .kwFor] → s.draft.previous = keyword →
      s.draft.ahead = ts ++ rest → (rest.headD s.draft.last).kind ≠ .kwElse →
      limit ≤ s.nesting + 1 →
      let after := nestedStatement limit active compile s
      after.draft = s.draft.skippedTo (ts.getLastD keyword) rest ∧ after.nesting = s.nesting) ∧
    (∀ (ts : List Token) (close : Token), Braced ts → close.kind = .rightBrace →
      s.draft.ahead = ts ++ close :: rest → limit ≤ s.nesting →
      let after := block limit patience active compile s
      after.draft = s.draft.skippedTo close rest ∧ after.nesting = s.nesting) := by
  constructor
  · rintro stmt _ ts hstmt hkeyword rfl hahead helse hdeep
    have hplain : ∀ kind ∈ [TokenKind.kwIf, .kwWhile, .kwFor], Draft.isPlain kind := by decide
    rw [nestedStatement, if_pos hdeep]
    exact ⟨Draft.skipStatement_of_derives hstmt (hplain _ hkeyword) hahead hrest helse hcalm, rfl⟩
  · intro ts close hts hclose hahead hdeep
    rw [block, if_pos hdeep]
    exact ⟨Draft.skipBlock_of_braced hts hclose hahead hrest hcalm, rfl⟩

/-- A loop and an `else` branch inside an if statement, and a block with a stray character. -/
theorem skips_whole_of_branches :
    let token (kind : TokenKind) : Token := ⟨kind, "", ⟨0, 0⟩, 1⟩
    let x := token .identifier
    let semicolon := token .semicolon
    let loop := [.kwFor, .leftParen, .semicolon, .semicolon, .rightParen, .leftBrace, .identifier,
      .semicolon, .rightBrace].map token
    let branch := [.kwWhile, .leftParen, .identifier, .rightParen, .identifier, .semicolon].map token
    let ts := token .leftParen :: x :: token .rightParen :: (loop ++ token .kwElse :: branch)
    let inside := [token .leftBrace, token (.invalid .unexpectedCharacter), token .rightBrace, x]
    let close := token .rightBrace
    let rest := [x, semicolon]
    let s : Counted :=
      ⟨(Draft.blank "" 256 .empty).moved (token .kwIf) (ts ++ rest), 0, []⟩
    let s' : Counted :=
      ⟨(Draft.blank "" 256 .empty).moved (token .leftBrace) (inside ++ close :: rest), 1, []⟩
    let piece (_ : Nat) (s : Counted) : Counted := s
    (∃ stmt : Stmt, stmt.Derives (token .kwIf :: ts)) ∧ Braced inside ∧
      (nestedStatement 1 0 piece s).draft = s.draft.skippedTo semicolon rest ∧
      (nestedStatement 1 0 piece s).nesting = 0 ∧
      (block 1 0 1 piece s').draft = s'.draft.skippedTo close rest ∧
      (block 1 0 1 piece s').nesting = 1 := by
  intro token x semicolon loop branch ts inside close rest s s' piece
  have hx : (Expr.variable "").Derives .assignment [x] :=
    Expr.Derives.variable (t := x) rfl
  have hexpression : (Stmt.expression (.variable "")).Derives [x, semicolon] := .expression hx rfl
  have hblock : Decl.DerivesAll [.statement (.expression (.variable ""))] [x, semicolon] :=
    .cons (.statement hexpression) .nil
  have hloop : (Stmt.forLoop .none none none (.block [.statement (.expression (.variable ""))])).Derives
      loop :=
    .forLoop rfl rfl (.none rfl) .none rfl .none rfl (.block rfl hblock rfl)
  have hbranch : (Stmt.whileLoop (.variable "") (.expression (.variable ""))).Derives branch :=
    .whileLoop rfl rfl hx rfl hexpression
  have hstmt : (Stmt.ifElse (.variable "") (.forLoop .none none none
      (.block [.statement (.expression (.variable ""))]))
      (.whileLoop (.variable "") (.expression (.variable "")))).Derives (token .kwIf :: ts) :=
    .ifElse rfl rfl hx rfl hloop rfl rfl hbranch
  have hinside : Braced inside :=
    .nested rfl (.token (by decide) .nil) rfl (.token (by decide) .nil)
  have hrest : ∀ t ∈ rest, t.kind.error? = none := by decide
  obtain ⟨hdraft, hnesting⟩ := (@skips_whole 1 0 0 piece s rest rfl hrest).1 _ (token .kwIf) ts hstmt
    (by decide) rfl rfl (by decide) (Nat.le_refl 1)
  obtain ⟨hdraft', hnesting'⟩ := (@skips_whole 1 0 1 piece s' rest rfl hrest).2 inside close hinside rfl
    rfl (Nat.le_refl 1)
  exact ⟨⟨_, hstmt⟩, hinside, hdraft, hnesting, hdraft', hnesting'⟩

end Counted

end Lox
