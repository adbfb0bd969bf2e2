import Lox.Proofs.Acceptance
import Lox.Proofs.Draft.Settled
import Lox.Proofs.Lockstep.Quiet
import Lox.Proofs.Rendering

/-!
# Expressions compile to post-order code

Whatever the parentheses that an expression is written with, compiling it passes its tokens and
nothing more, and writes its post-order code. This holds wherever in a source the expression stands,
whatever has been reported before it and whatever the scopes, as long as it keeps to the limits and
uses no local in its own initial value.

A draft that faces a rendering is quieted, so that what is known of sources without faults can be said
of it.

## Main definitions

* `LocalScope.awaiting`: the scopes while a local is pending.
* `Expr.WithinLimits`: what an expression must keep to at a place.
* `Draft.Faces`: the draft has come to a rendering of the expression.

## Main results

* `Expr.fits_iff_withinLimits`: what fits are the trees of the expressions that keep to the limits.
* `expression_emits_postOrder`: the code of every rendering.
-/

namespace Lox

/-! ### Scopes -/

namespace LocalScope

/-- The scopes while a local may be pending, declared after all others. -/
def awaiting (s : LocalScope) (pending : Option String) : LocalScope :=
  { s with locals := pending.toList.map (⟨·, none⟩) ++ s.locals }

/-- The names of the locals, the latest first. -/
def names (s : LocalScope) : List String := s.locals.map Local.name

/-- Locals with depths in order are those of scopes. -/
theorem exists_localsOf {locals : List Local} {depths : List Nat} {innermost : Nat}
    (hdepths : locals.map Local.depth = depths.map some)
    (hsorted : depths.Pairwise (fun later earlier => earlier ≤ later))
    (hbounds : ∀ depth ∈ depths, 1 ≤ depth ∧ depth ≤ innermost) :
    ∃ scopes : Scopes, scopes.length = innermost ∧ localsOf scopes = locals := by
  induction innermost generalizing locals depths with
  | zero =>
    cases depths with
    | nil => exact ⟨[], rfl, (List.map_eq_nil_iff.mp hdepths).symm⟩
    | cons depth depths =>
      have hbound := hbounds depth List.mem_cons_self
      omega
  | succ outermost ih =>
    -- Without a local in the innermost scope, all are those of the outer ones.
    have hempty : ∀ {locals : List Local} {depths : List Nat},
        locals.map Local.depth = depths.map some →
        depths.Pairwise (fun later earlier => earlier ≤ later) →
        (∀ depth ∈ depths, 1 ≤ depth ∧ depth ≤ outermost) →
        ∃ scopes : Scopes, scopes.length = outermost + 1 ∧ localsOf scopes = locals := by
      intro locals depths hdepths hsorted hbounds
      obtain ⟨outer, hlength, hlocals⟩ := ih hdepths hsorted hbounds
      exact ⟨[] :: outer, congrArg (· + 1) hlength, hlocals⟩
    induction locals generalizing depths with
    | nil =>
      obtain rfl := List.map_eq_nil_iff.mp hdepths.symm
      exact hempty rfl .nil nofun
    | cons l locals ihLocals =>
      obtain ⟨depth, depths, rfl, hdepth, hrest⟩ := List.map_eq_cons_iff.mp hdepths.symm
      by_cases hinner : depth = outermost + 1
      · obtain ⟨scopes, hlength, hlocals⟩ := ihLocals hrest.symm hsorted.of_cons
          fun k hk => hbounds k (List.mem_cons_of_mem _ hk)
        obtain ⟨scope, outer, rfl⟩ := List.exists_cons_of_length_eq_add_one hlength
        refine ⟨(l.name :: scope) :: outer, hlength, ?_⟩
        have hl : (⟨l.name, some (outer.length + 1)⟩ : Local) = l := by
          rw [show outer.length + 1 = depth from hlength.trans hinner.symm, hdepth]
        rw [← hlocals, localsOf, localsOf, List.map_cons, hl]
        rfl
      · refine hempty hdepths hsorted fun k hk => ⟨(hbounds k hk).1, ?_⟩
        have hdepthLe := (hbounds depth List.mem_cons_self).2
        rcases List.mem_cons.mp hk with rfl | hk
        · omega
        · have hle := List.rel_of_pairwise_cons hsorted hk
          omega

/-- The locals of a settled scope, and one that is pending, are those of scopes. -/
theorem Settled.exists_ofScopes {limit : Nat} {s : LocalScope} (h : s.Settled limit) :
    ∃ scopes : Scopes, scopes.names = s.names ∧
      ∀ pending, s.awaiting pending = ofScopes s.limit scopes pending := by
  obtain ⟨depths, hdepths, hsorted, hbounds⟩ := h.depths
  obtain ⟨scopes, hlength, hlocals⟩ := exists_localsOf hdepths hsorted hbounds
  refine ⟨scopes, ?_, fun pending => ?_⟩
  · rw [names, ← hlocals, map_name_localsOf]
  · rw [awaiting, ofScopes, hlocals, hlength]

end LocalScope

/-! ### What an expression must keep to -/

/-- The expression, in a rendering of some depth, exceeds no limit at a place with a number of levels
left, after the constants of a pool, and does not use the local that is pending. -/
@[mk_iff]
structure Expr.WithinLimits (levels depth : Nat) (locals : List String) (pending : Option String)
    (pool : Pool) (e : Expr) : Prop where
  nesting : depth ≤ levels
  names : ∀ name, pending = some name → name ∉ e.names
  constants : (e.postOrder locals pool).2.length ≤ 256
  jumps : JumpsFit (e.postOrder locals pool).1

/-- What fits are the trees of the expressions that keep to the limits. -/
theorem Expr.fits_iff_withinLimits (tree : Expr) (levels : Nat) (scopes : Scopes)
    (pending : Option String) (pool : Pool) : tree.Fits levels scopes pending pool ↔
      tree.bare.WithinLimits levels tree.height scopes.names pending pool := by
  rw [Expr.Fits, fits_iff, withinLimits_iff, postOrder_bare, names_bare, postOrder_eq]
  rfl

/-! ### Facing a rendering -/

/-- Neither an infix operator nor an equals sign. -/
def TokenKind.EndsExpression (kind : TokenKind) : Prop :=
  kind ≠ .equal ∧ kind ≠ .kwAnd ∧ kind ≠ .kwOr ∧ ∀ op : BinaryOp, kind ≠ op.token

theorem TokenKind.EndsExpression.stops {kind : TokenKind} (h : kind.EndsExpression)
    (level : Precedence) : Stops level kind := by
  refine stops_of_connective?_eq_none ?_ h.1
  cases hconnective : kind.connective? with
  | none => rfl
  | some c =>
    have hkind := connective?_eq_some_iff.mp hconnective
    cases c with
    | binary op => exact absurd hkind (h.2.2.2 op)
    | and => exact absurd hkind h.2.1
    | or => exact absurd hkind h.2.2.1

theorem Literal.error?_token (value : Literal) : value.token.error? = none := by
  cases value with
  | nil => rfl
  | bool b => cases b <;> rfl

theorem UnaryOp.error?_token (op : UnaryOp) : op.token.error? = none := by
  cases op <;> rfl

theorem BinaryOp.error?_token (op : BinaryOp) : op.token.error? = none := by
  cases op <;> rfl

/-- The tokens of a rendering are no errors. -/
theorem Expr.Renders.isSound {stratum : Stratum} {depth : Nat} {e : Expr} {ts : List Token}
    (h : e.Renders stratum depth ts) : ∀ t ∈ ts, t.isSound := by
  have hkind : ∀ {t : Token} {kind : TokenKind}, t.kind = kind → kind.error? = none →
      t.isSound := by
    rintro t _ rfl hkind
    rw [Token.isSound, hkind]
    rfl
  induction h with
  | @literal value _ kind => exact List.forall_mem_singleton.mpr (hkind kind value.error?_token)
  | number kind | string kind | «variable» kind =>
    exact List.forall_mem_singleton.mpr (hkind kind rfl)
  | parentheses opening _ closing ih =>
    exact List.forall_mem_cons.mpr ⟨hkind opening rfl,
      List.forall_mem_append.mpr ⟨ih, List.forall_mem_singleton.mpr (hkind closing rfl)⟩⟩
  | @unary _ op _ _ _ sign _ ih =>
    exact List.forall_mem_cons.mpr ⟨hkind sign op.error?_token, ih⟩
  | @binary _ _ op _ _ _ _ _ _ sign _ ihl ihr =>
    exact List.forall_mem_append.mpr
      ⟨ihl, List.forall_mem_cons.mpr ⟨hkind sign op.error?_token, ihr⟩⟩
  | and _ sign _ ihl ihr | or _ sign _ ihl ihr =>
    exact List.forall_mem_append.mpr ⟨ihl, List.forall_mem_cons.mpr ⟨hkind sign rfl, ihr⟩⟩
  | assign name sign _ ih =>
    exact List.forall_mem_cons.mpr
      ⟨hkind name rfl, List.forall_mem_cons.mpr ⟨hkind sign rfl, ih⟩⟩
  | looser _ ih => exact ih

/-- In a source, the draft has come to a rendering of the expression, in some scopes and after the
constants of a pool. The first token behind the rendering that is no error ends the expression. -/
structure Draft.Faces (d : Draft) (s : LocalScope) (pending : Option String) (pool : Pool) (e : Expr)
    (depth : Nat) (rest : List Token) : Prop where
  source : ∃ source, d.ahead <:+ (scan source).tokens
  last : d.last.kind = .endOfSource
  rendering : ∃ ts, e.Renders .assignment depth ts ∧ d.ahead = ts ++ rest
  ends : ∀ t, rest.find? Token.isSound = some t → t.kind.EndsExpression
  scope : d.scope = s.awaiting pending
  pool : d.HasPool pool

/-- Nothing is reported while the expression is compiled, though the draft is not panicking. -/
def Draft.ReportsNothing (levels : Nat) (d : Draft) : Prop :=
  d.panicking = false ∧ (d.expression levels).diagnostics = d.diagnostics

/-- The tokens left behind those of a rendering, when errors ahead have been passed. -/
theorem eq_dropWhile_of_filter_eq {ts rest left : List Token} (hts : ∀ t ∈ ts, t.isSound)
    (hsuffix : left <:+ ts ++ rest)
    (hfilter : left.filter Token.isSound = rest.filter Token.isSound)
    (hhead : ∀ t ∈ left.head?, t.isSound) : left = rest.dropWhile fun t => !t.isSound := by
  -- Nothing but errors can have been passed of the rest.
  have hpassed : ∃ errors, rest = errors ++ left ∧ errors.filter Token.isSound = [] := by
    obtain ⟨passed, hpassed⟩ := hsuffix
    obtain ⟨kept, rfl, rfl⟩ | ⟨errors, rfl, rfl⟩ := List.append_eq_append_iff.mp hpassed
    · have hkept : kept.filter Token.isSound = kept :=
        List.filter_eq_self.mpr fun t ht => hts t (List.mem_append_right _ ht)
      rw [List.filter_append, hkept, List.append_left_eq_self] at hfilter
      exact ⟨[], by rw [hfilter]; rfl, rfl⟩
    · rw [List.filter_append, List.self_eq_append_left] at hfilter
      exact ⟨errors, rfl, hfilter⟩
  obtain ⟨errors, rfl, herrors⟩ := hpassed
  rw [List.dropWhile_append_of_pos fun t ht => by
    simpa using List.filter_eq_nil_iff.mp herrors t ht]
  cases left with
  | nil => rfl
  | cons t left =>
    exact (List.dropWhile_cons_of_neg (by simp [hhead t rfl])).symm

namespace Draft.Faces

variable {d d' : Draft} {s : LocalScope} {pending : Option String} {pool : Pool} {e : Expr}
  {limit levels levels' depth depth' : Nat} {rest rest' : List Token}

/-- The draft has come to a token that is no error. -/
theorem reached (h : d.Faces s pending pool e depth rest) : ∀ t ∈ d.ahead.head?, t.isSound := by
  obtain ⟨ts, hrenders, hahead⟩ := h.rendering
  obtain ⟨tree, hderives, -, -⟩ := hrenders.exists_derives
  obtain ⟨t, us, rfl, -⟩ := hderives.exists_cons
  rw [hahead]
  rintro _ ⟨⟩
  exact hrenders.isSound t List.mem_cons_self

/-- In a quiet place the draft matches a sketch. -/
theorem matches_quiet (h : d.Faces s pending pool e depth rest) {scopes : Scopes}
    (hscopes : s.awaiting pending = .ofScopes s.limit scopes pending) :
    d.quiet.Matches ⟨s.limit, scopes, pending, pool, d.chunk.code.toList, d.quiet.ahead⟩ where
  proper := by
    obtain ⟨source, hsource⟩ := h.source
    refine ⟨h.last, fun t ht => ?_, nofun⟩
    obtain ⟨hmem, hsound⟩ := List.mem_filter.mp ht
    exact isProper_of_mem_scan (hsource.subset hmem) (Option.isNone_iff_eq_none.mp hsound)
  clean := rfl
  running := rfl
  scope := h.scope.trans hscopes
  pool := h.pool.of_eq rfl rfl rfl
  code := rfl
  ahead := rfl

/-- **A rendering compiles to post-order code.** -/
theorem compiles (h : d.Faces s pending pool e depth rest) (hs : s.Settled limit)
    (hfine : e.WithinLimits levels depth s.names pending pool ∨ d.ReportsNothing levels) :
    (d.expression levels).ahead = (rest.dropWhile fun t => !t.isSound) ∧
    (d.expression levels).chunk.code.toList =
      d.chunk.code.toList ++ codeBytes (e.postOrder s.names pool).1 ∧
    (d.expression levels).HasPool (e.postOrder s.names pool).2 ∧
    (d.expression levels).scope = d.scope ∧
    ∃ new, (d.expression levels).diagnostics.toList = d.diagnostics.toList ++ new ∧
      ∀ x ∈ new, x.problem.isLexical := by
  obtain ⟨scopes, hnames, hscopes⟩ := hs.exists_ofScopes
  obtain ⟨ts, hrenders, hahead⟩ := h.rendering
  obtain ⟨tree, hderives, rfl, rfl⟩ := hrenders.exists_derives
  rw [← hnames] at hfine ⊢
  have hquiet := lockstep_quieted.expressionAt levels .assignment (quieted_quiet h.last h.reached)
  have hrest : d.quiet.ahead = ts ++ rest.filter Token.isSound := by
    show d.ahead.filter Token.isSound = _
    rw [hahead, List.filter_append, List.filter_eq_self.mpr hrenders.isSound]
  have hstops : Stops .assignment (headKind (rest.filter Token.isSound)) := by
    cases hnext : rest.filter Token.isSound with
    | nil => exact stops_of_connective?_eq_none rfl nofun
    | cons t later =>
      have hfind : rest.find? Token.isSound = some t := by rw [← List.head?_filter, hnext]; rfl
      exact (h.ends t hfind).stops .assignment
  have hmeets := compiles_expressionAt levels hderives (h.matches_quiet (hscopes pending)) hrest
    hstops
  rw [tree.fits_iff_withinLimits] at hmeets
  -- What is fine reports nothing in a quiet place.
  have hwithin : tree.bare.WithinLimits levels tree.height scopes.names pending pool := by
    obtain hwithin | ⟨hcalm, hnothing⟩ := hfine
    · exact hwithin
    · obtain ⟨hclean, -, -⟩ | hlt := hquiet.noticed hcalm
      · exact (hmeets.of_clean hclean).1
      · exact absurd hlt (by rw [← expression, hnothing]; exact Nat.lt_irrefl _)
  have hmatches := hmeets.of_condition hwithin
  have hleft := eq_dropWhile_of_filter_eq hrenders.isSound
    (hahead ▸ (steps_expressionAt d levels .assignment).tokens.1)
    (hquiet.ahead.symm.trans hmatches.ahead) hquiet.reached
  refine ⟨hleft, ?_, ?_, ?_, hquiet.lexical hmatches.clean⟩
  all_goals
    obtain ⟨ahead, panicking, diagnostics, stalled, heq⟩ := hquiet.eq
    rw [expression, heq]
  · rw [Expr.postOrder_bare, Expr.postOrder_eq]
    exact hmatches.code
  · rw [Expr.postOrder_bare, Expr.postOrder_eq]
    exact hmatches.pool.of_eq rfl rfl rfl
  · exact hmatches.scope.trans ((hscopes pending).symm.trans h.scope.symm)

end Draft.Faces

/-- A source that starts with a rendering is faced at its start, with no scope open and no
constants. -/
theorem Draft.faces_start {source : String} {e : Expr} {depth : Nat} {ts rest : List Token}
    (hrenders : e.Renders .assignment depth ts) (htokens : (scan source).tokens = ts ++ rest)
    (hends : ∀ t, rest.find? Token.isSound = some t → t.kind.EndsExpression) (maxLocals : Nat)
    (interner : Interner) :
    (start source maxLocals interner).Faces (.start maxLocals) none [] e depth rest := by
  obtain ⟨tree, hderives, -, -⟩ := hrenders.exists_derives
  obtain ⟨t, us, rfl, -⟩ := hderives.exists_cons
  have hstart : start source maxLocals interner =
      { blank source maxLocals interner with ahead := (scan source).tokens } := by
    refine comeTo_eq_of_error? (blank source maxLocals interner) _ ?_
    rw [htokens]
    rintro _ ⟨⟩
    exact Option.isNone_iff_eq_none.mp (hrenders.isSound t List.mem_cons_self)
  rw [hstart]
  exact ⟨⟨source, List.suffix_refl _⟩, rfl, ⟨_, hrenders, htokens⟩, hends, rfl,
    (hasPool_blank source maxLocals interner).of_eq rfl rfl rfl⟩

/-- **Expressions compile to post-order code.** From a draft that faces a rendering of an expression,
compiling passes the tokens of the rendering and the errors behind it, writes the post-order code of
the expression and adds its constants to the pool in post-order, and leaves the scopes as they are;
nothing but lexical errors is reported. Where the expression is written with other parentheses, in
the same scopes and after the same constants, the code and the constants are the same. -/
theorem expression_emits_postOrder {limit levels depth : Nat} {s : LocalScope}
    {pending : Option String} {pool : Pool} {e : Expr} {d : Draft} {rest : List Token}
    (hs : s.Settled limit) (h : d.Faces s pending pool e depth rest)
    (hfine : e.WithinLimits levels depth s.names pending pool ∨ d.ReportsNothing levels) :
    ((d.expression levels).ahead = (rest.dropWhile fun t => !t.isSound) ∧
      (d.expression levels).chunk.code.toList =
        d.chunk.code.toList ++ codeBytes (e.postOrder s.names pool).1 ∧
      (d.expression levels).HasPool (e.postOrder s.names pool).2 ∧
      (d.expression levels).scope = d.scope ∧
      ∃ new, (d.expression levels).diagnostics.toList = d.diagnostics.toList ++ new ∧
        ∀ x ∈ new, x.problem.isLexical) ∧
    ∀ (d' : Draft) (levels' depth' : Nat) (rest' : List Token), d'.Faces s pending pool e depth' rest' →
      e.WithinLimits levels' depth' s.names pending pool ∨ d'.ReportsNothing levels' →
      (∃ code, (d.expression levels).chunk.code.toList = d.chunk.code.toList ++ code ∧
        (d'.expression levels').chunk.code.toList = d'.chunk.code.toList ++ code) ∧
      ∃ pool', (d.expression levels).HasPool pool' ∧ (d'.expression levels').HasPool pool' := by
  have hcompiles := h.compiles hs hfine
  refine ⟨hcompiles, fun d' levels' depth' rest' h' hfine' => ?_⟩
  obtain ⟨-, hcode, hpool, -, -⟩ := hcompiles
  obtain ⟨-, hcode', hpool', -, -⟩ := h'.compiles hs hfine'
  exact ⟨⟨_, hcode, hcode'⟩, _, hpool, hpool'⟩

/-- An expression with and without redundant parentheses: the code is the same. -/
theorem expression_emits_postOrder_of_parentheses :
    let d := Draft.start "!a and \"b\";" 256 .empty
    let d' := Draft.start "(!(a))and\"b\";" 256 .empty
    (d.expression 256).chunk.code.toList = codeBytes
      [⟨.getGlobal, 0⟩, ⟨.not, 0⟩, ⟨.jumpIfFalse, 3⟩, ⟨.pop, 0⟩, ⟨.constant, 1⟩] ∧
    (d'.expression 256).chunk.code.toList = (d.expression 256).chunk.code.toList := by
  intro d d'
  let e : Expr := .and (.unary .not (.variable "a")) (.string "b")
  let token (kind : TokenKind) (lexeme : String) (start stop : Nat) : Token :=
    ⟨kind, lexeme, ⟨start, stop⟩, 1⟩
  have hname (start stop : Nat) (stratum : Stratum) :
      (Expr.variable "a").Renders stratum 1 [token .identifier "a" start stop] :=
    (@Expr.Renders.variable (token .identifier "a" start stop) rfl).mono stratum.level_le_primary
  have hand {ts : List Token} {depth : Nat} (start middle stop : Nat)
      (hleft : (Expr.unary .not (.variable "a")).Renders .equality depth ts) :
      e.Renders .assignment (max depth 2)
        (ts ++ [token .kwAnd "and" start middle, token .string "\"b\"" (stop - 3) stop]) :=
    (Expr.Renders.and hleft rfl ((Expr.Renders.string rfl rfl).mono (by decide))).mono (by decide)
  have hplain : (Expr.unary .not (.variable "a")).Renders .equality 2
      [token .bang "!" 0 1, token .identifier "a" 1 2] :=
    (Expr.Renders.unary rfl (hname 1 2 .unary)).mono (by decide)
  have hinner : (Expr.variable "a").Renders .unary 2
      [token .leftParen "(" 2 3, token .identifier "a" 3 4, token .rightParen ")" 4 5] :=
    (Expr.Renders.parentheses rfl (hname 3 4 .assignment) rfl).mono (by decide)
  have hnested : (Expr.unary .not (.variable "a")).Renders .equality 4
      (token .leftParen "(" 0 1 :: (token .bang "!" 1 2 :: [token .leftParen "(" 2 3,
        token .identifier "a" 3 4, token .rightParen ")" 4 5] ++ [token .rightParen ")" 5 6])) :=
    (Expr.Renders.parentheses rfl ((Expr.Renders.unary rfl hinner).mono (by decide)) rfl).mono
      (by decide)
  have hends : ∀ (start stop : Nat) (t : Token),
      [token .semicolon ";" start stop].find? Token.isSound = some t → t.kind.EndsExpression := by
    rintro start stop _ ⟨⟩
    exact ⟨nofun, nofun, nofun, fun op => by cases op <;> nofun⟩
  have hfaces : d.Faces (.start 256) none [] e 2 [token .semicolon ";" 10 11] :=
    Draft.faces_start (hand 3 6 10 hplain) (by decide +kernel) (hends 10 11) 256 .empty
  have hfaces' : d'.Faces (.start 256) none [] e 4 [token .semicolon ";" 12 13] :=
    Draft.faces_start (hand 6 9 12 hnested) (by decide +kernel) (hends 12 13) 256 .empty
  obtain ⟨⟨-, hcode, -⟩, hsame⟩ := expression_emits_postOrder (LocalScope.settled_start 256) hfaces
    (.inr ⟨by decide +kernel, by decide +kernel⟩ : _ ∨ d.ReportsNothing 256)
  obtain ⟨⟨code, hcode', hcode''⟩, -⟩ := hsame d' 256 4 _ hfaces'
    (.inr ⟨by decide +kernel, by decide +kernel⟩)
  have hblank : d.chunk.code.toList = [] ∧ d'.chunk.code.toList = [] := by decide +kernel
  rw [hblank.1, List.nil_append] at hcode hcode'
  rw [hblank.2, List.nil_append] at hcode''
  exact ⟨hcode, hcode''.trans hcode'.symm⟩

end Lox
