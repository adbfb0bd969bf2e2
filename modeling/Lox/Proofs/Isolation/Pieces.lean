import Lox.Proofs.Acceptance
import Lox.Proofs.Isolation.Statement

/-!
# Problems of one statement and of the next

A source is put together from pieces: texts of one statement each, from `print` or `var` up to a
semicolon. What else is in a piece may make no sense at all. Compiling such a source always ends,
and each piece is compiled as it is alone.

So the diagnostics of the source are those that the pieces have alone, at their places, with one
exception. A piece alone has one diagnostic at most for what it says, and one more if recovery from
that passes a lexical error. After the second the draft goes on panicking into the next piece, where
it suppresses the first diagnostic.

## Main definitions

* `IsPiece`: a text of one statement.
* `diagnosticsSideBySide`: the diagnostics of texts, each at its place behind those before it.
* `diagnosticsInTurn`: the same, where a text with two diagnostics hides the first of the next.

## Main results

* `compile_pieces`: compiling pieces ends, with the diagnostics in turn.
-/

namespace Lox

/-- A text of one statement, from `print` or `var` up to its only semicolon, with no other word in it
that starts a statement. -/
structure IsPiece (text : String) : Prop where
  first : ∃ t ∈ (scan text).tokens.head?, t.kind = .kwPrint ∨ t.kind = .kwVar
  rest : UpToSemicolon (scan text).tokens.tail
  /-- The semicolon is the last character. -/
  stop : ∀ t ∈ (scan text).tokens.getLast?, t.span.stop = text.utf8ByteSize

instance (text : String) : Decidable (IsPiece text) :=
  decidable_of_iff ((∃ t ∈ (scan text).tokens.head?, t.kind = .kwPrint ∨ t.kind = .kwVar) ∧
    UpToSemicolon (scan text).tokens.tail ∧
    ∀ t ∈ (scan text).tokens.getLast?, t.span.stop = text.utf8ByteSize)
    ⟨fun h => ⟨h.1, h.2.1, h.2.2⟩, fun h => ⟨h.first, h.rest, h.stop⟩⟩

/-- The diagnostics of a source, if its compilation ends. -/
def diagnosticsOf (limits : Limits) (interner : Interner) (source : String) : List Diagnostic :=
  match compile limits interner source with
  | some c => c.diagnostics.toList
  | none => []

/-- The diagnostics that some texts have alone, each at its place behind the texts before it. -/
def diagnosticsSideBySide (alone : String → List Diagnostic) (bytes lines : Nat) :
    List String → List Diagnostic
  | [] => []
  | text :: texts =>
    (alone text).map (.shift bytes lines) ++
      diagnosticsSideBySide alone (bytes + text.utf8ByteSize) (lines + text.toList.count '\n') texts

/-- The diagnostics of some texts one behind the other: those that each has alone, at its place, but
for the first where it is hidden. A text with two diagnostics hides the first of the next. -/
def diagnosticsInTurn (alone : String → List Diagnostic) (bytes lines : Nat) (hidden : Bool) :
    List String → List Diagnostic
  | [] => []
  | text :: texts =>
    ((alone text).drop (if hidden then 1 else 0)).map (.shift bytes lines) ++
      diagnosticsInTurn alone (bytes + text.utf8ByteSize) (lines + text.toList.count '\n')
        (decide (2 ≤ (alone text).length)) texts

theorem diagnosticsInTurn_congr {f g : String → List Diagnostic} {texts : List String}
    (h : ∀ text ∈ texts, f text = g text) (bytes lines : Nat) (hidden : Bool) :
    diagnosticsInTurn f bytes lines hidden texts = diagnosticsInTurn g bytes lines hidden texts := by
  induction texts generalizing bytes lines hidden with
  | nil => rfl
  | cons text texts ih =>
    obtain ⟨htext, htexts⟩ := List.forall_mem_cons.mp h
    rw [diagnosticsInTurn, diagnosticsInTurn, htext, ih htexts]

/-- Nothing is hidden where no text has two diagnostics. -/
theorem diagnosticsInTurn_eq {alone : String → List Diagnostic} {texts : List String}
    (h : ∀ text ∈ texts, (alone text).length ≤ 1) (bytes lines : Nat) :
    diagnosticsInTurn alone bytes lines false texts =
      diagnosticsSideBySide alone bytes lines texts := by
  induction texts generalizing bytes lines with
  | nil => rfl
  | cons text texts ih =>
    obtain ⟨htext, htexts⟩ := List.forall_mem_cons.mp h
    have hone : ¬2 ≤ (alone text).length := Nat.not_le_of_lt (Nat.lt_succ_of_le htext)
    rw [diagnosticsInTurn, diagnosticsSideBySide, decide_eq_false hone, ih htexts]
    rfl

/-! ### Tokens -/

variable {text : String} {texts : List String}

theorem IsPiece.tokens (h : IsPiece text) : ∃ first rest, (scan text).tokens = first :: rest ∧
    (first.kind = .kwPrint ∨ first.kind = .kwVar) ∧ UpToSemicolon rest := by
  obtain ⟨first, hfirst, hkind⟩ := h.first
  have hrest := h.rest
  cases htokens : (scan text).tokens with
  | nil =>
    rw [htokens] at hfirst
    cases hfirst
  | cons t ts =>
    rw [htokens] at hfirst hrest
    cases hfirst
    exact ⟨first, ts, rfl, hkind, hrest⟩

theorem IsPiece.scan_append (h : IsPiece text) (b : String) :
    (scan (text ++ b)).tokens = (scan text).tokens ++
      (scan b).tokens.map (Token.shift text.utf8ByteSize (text.toList.count '\n')) := by
  obtain ⟨first, rest, htokens, -, hrest⟩ := h.tokens
  obtain ⟨inner, last, rfl, hlast, -⟩ := hrest.exists_concat
  rw [← List.cons_append] at htokens
  exact scan_append_of_semicolon b htokens hlast
    (h.stop last (by rw [htokens, List.getLast?_concat]; rfl))

theorem Token.shift_shift (bytes lines bytes' lines' : Nat) (t : Token) :
    (t.shift bytes lines).shift bytes' lines' = t.shift (bytes' + bytes) (lines' + lines) := by
  simp only [Token.shift, Nat.add_assoc, Nat.add_comm bytes, Nat.add_comm lines]

/-- Where a number of pieces stand, the first is followed by the others. -/
theorem tokens_join_cons (h : IsPiece text) (texts : List String) (bytes lines : Nat) :
    (scan (String.join (text :: texts))).tokens.map (Token.shift bytes lines) =
      (scan text).tokens.map (Token.shift bytes lines) ++
        (scan (String.join texts)).tokens.map
          (Token.shift (bytes + text.utf8ByteSize) (lines + text.toList.count '\n')) := by
  rw [String.join_cons, h.scan_append, List.map_append, List.map_map]
  refine congrArg _ (List.map_congr_left fun t _ => ?_)
  exact Token.shift_shift ..

theorem scan_empty : (scan "").tokens = [] := by
  rw [scan, Place.tokens_eq]
  rfl

/-- Every piece has a token. -/
theorem length_le_tokens_join (h : ∀ text ∈ texts, IsPiece text) :
    texts.length ≤ (scan (String.join texts)).tokens.length := by
  induction texts with
  | nil => exact Nat.zero_le _
  | cons text texts ih =>
    obtain ⟨htext, htexts⟩ := List.forall_mem_cons.mp h
    obtain ⟨first, rest, htokens, -⟩ := htext.tokens
    rw [String.join_cons, htext.scan_append, htokens, List.length_append, List.length_map,
      List.length_cons, List.length_cons]
    exact Nat.succ_le_of_lt (Nat.lt_of_le_of_lt (ih htexts) (by omega))

/-- A source of pieces starts with a statement, if with anything. -/
theorem begins_of_pieces (h : ∀ text ∈ texts, IsPiece text) :
    ∀ t ∈ (scan (String.join texts)).tokens.head?, t.kind = .kwPrint ∨ t.kind = .kwVar := by
  intro t ht
  cases texts with
  | nil =>
    rw [String.join_nil, scan_empty] at ht
    cases ht
  | cons text texts =>
    have htext := h text List.mem_cons_self
    obtain ⟨first, rest, htokens, hfirst, -⟩ := htext.tokens
    rw [String.join_cons, htext.scan_append, htokens] at ht
    cases ht
    exact hfirst

theorem begins_of_pieces_behind (h : ∀ text ∈ texts, IsPiece text) (bytes lines : Nat) :
    ∀ t ∈ ((scan (String.join texts)).tokens.map (Token.shift bytes lines)).head?,
      t.kind = .kwPrint ∨ t.kind = .kwVar := by
  intro t ht
  rw [List.head?_map, Option.mem_def, Option.map_eq_some_iff] at ht
  obtain ⟨u, hu, rfl⟩ := ht
  exact begins_of_pieces h u hu

namespace Draft

variable {S : Site} {d d' : Draft} {levels : Nat}

/-! ### One piece -/

theorem statement_of_print (h : d.current.kind = .kwPrint) :
    statement levels d = d.advance.printStatement levels := by
  cases levels <;> rw [statement, statementWith, h]

/-- **A piece is compiled as it is alone** up to recovery. -/
theorem ended_piece (hbeside : Beside S { d with previous := d.current }
      { d' with previous := d'.current })
    {first : Token} {rest : List Token} (hahead : d.ahead = first :: rest)
    (hfirst : first.kind = .kwPrint ∨ first.kind = .kwVar) (hrest : UpToSemicolon rest)
    (hkinds : ∀ t ∈ rest, t.kind ≠ .endOfSource) :
    Ended S (if d.check .kwVar then d.advance.varDeclaration levels else statement levels d)
      (if d'.check .kwVar then d'.advance.varDeclaration levels else statement levels d') := by
  have hcurrent : d.current = first := by rw [current, hahead, List.headD_cons]
  have hpassed : d'.current = S.token d.current := hbeside.previous
  have hkind : d'.current.kind = d.current.kind := by
    rw [hpassed]
    rfl
  have hsemicolon : first.kind ≠ .semicolon := by
    obtain hkind | hkind := hfirst <;> rw [hkind] <;> decide
  have hconfined : Confined S true d.advance d'.advance :=
    ⟨hbeside.advance_of_passed (by rw [hahead]; exact List.cons_ne_nil _ _),
      .inl (inside_advance hahead hsemicolon hrest hkinds)⟩
  rw [Draft.check, Draft.check, hkind]
  split
  · exact hconfined.varDeclaration levels
  · next hvar =>
    have hprint : d.current.kind = .kwPrint := by
      rw [hcurrent] at hvar ⊢
      exact hfirst.resolve_right fun hkind => hvar (by rw [hkind]; rfl)
    rw [statement_of_print hprint, statement_of_print (hkind.trans hprint)]
    exact hconfined.printStatement levels

/-- What is found before recovery and what is found in it, but for the first if that is hidden. -/
theorem drop_found {found more : List Diagnostic} {panicking still : Bool}
    (hfound : found.length = if panicking then 1 else 0)
    (hmore : more.length = if still then 1 else 0) (hstill : still = true → panicking = true)
    (hidden : Bool) : (found ++ more).drop (if hidden then 1 else 0) =
      (if hidden then [] else found) ++ more := by
  cases hidden with
  | false => rfl
  | true =>
    cases panicking with
    | true =>
      obtain ⟨x, rfl⟩ := List.length_eq_one_iff.mp hfound
      rfl
    | false =>
      have hcalm : still = false := Bool.eq_false_iff.mpr fun h => absurd (hstill h) Bool.false_ne_true
      rw [hcalm] at hmore
      rw [List.eq_nil_of_length_eq_zero hfound, List.eq_nil_of_length_eq_zero hmore]
      rfl

/-- **The reports of a piece** and what recovery adds. -/
theorem Ended.reports (h : Ended S d d') (halone : S.alone = []) :
    let e := if d.panicking then d.synchronize else d
    let e' := if d'.panicking then d'.synchronize else d'
    (e.diagnostics.toList.length ≤ 2 ∧ e.panicking = decide (2 ≤ e.diagnostics.toList.length)) ∧
    ∃ pool xs, e'.HasPool pool ∧ (pool.length < maxConstants →
      e'.panicking = decide (2 ≤ e.diagnostics.toList.length) ∧
      e'.diagnostics.toList = S.reported ++ (e.diagnostics.toList.drop
        (if S.hidden then 1 else 0)).map (.shift S.bytes S.lines) ∧
      pool = Pool.addAll [] xs) := by
  intro e e'
  obtain ⟨hafter, -⟩ := h.recovery
  have hstill : e.panicking = true → d.panicking = true := panicking_of_recovery
  have hcount : d.diagnostics.toList.length = if d.panicking then 1 else 0 := by
    have hcount := h.beside.count
    rwa [halone, List.length_nil, Nat.zero_add] at hcount
  have hcountAfter : e.diagnostics.toList.length =
      d.diagnostics.toList.length + if e.panicking then 1 else 0 := hafter.count
  have htwo : e.diagnostics.toList.length ≤ 2 ∧
      e.panicking = decide (2 ≤ e.diagnostics.toList.length) := by
    cases hpanic : e.panicking with
    | true =>
      rw [hcountAfter, hcount, hstill hpanic, hpanic]
      decide
    | false =>
      rw [hcountAfter, hcount, hpanic]
      cases d.panicking <;> decide
  refine ⟨htwo, ?_⟩
  obtain ⟨_, pool, -, hpool, hroom⟩ := hafter.pools
  obtain ⟨_, poolBefore, -, hpoolBefore, hroomBefore⟩ := h.beside.pools
  have hlength : poolBefore.length = pool.length := by
    rw [← hpool.size_constants, chunk_recovery, hpoolBefore.size_constants]
  by_cases hlt : pool.length < maxConstants
  · obtain ⟨⟨hpanicking, more, hmore, hreported⟩, xs, -, heq⟩ := hroom hlt
    obtain ⟨⟨-, found, hfound, hreportedBefore⟩, -⟩ := hroomBefore (hlength ▸ hlt)
    have hsplit : e.diagnostics.toList = found ++ more := by
      rw [hmore, Site.after, hfound, halone, List.nil_append]
    have hfoundCount : found.length = if d.panicking then 1 else 0 := by
      rw [← hcount, hfound, halone, List.nil_append]
    have hmoreCount : more.length = if e.panicking then 1 else 0 := by
      have hsum := hcountAfter
      rw [hsplit, List.length_append, hcount, hfoundCount] at hsum
      exact Nat.add_left_cancel hsum
    refine ⟨pool, _, hpool, fun _ => ⟨?_, ?_, heq⟩⟩
    · rw [← htwo.2]
      exact hpanicking
    · rw [hsplit, drop_found hfoundCount hmoreCount hstill, List.map_append, ← List.append_assoc]
      refine hreported.trans (congrArg (· ++ _) ?_)
      show d'.diagnostics.toList = _
      rw [hreportedBefore]
      split <;> rfl
  · exact ⟨pool, [], hpool, fun hroom => absurd hroom hlt⟩

/-! ### Pieces in turn -/

/-- The draft of a longer source before some pieces at its end. What is known of the reports holds as
long as there is room for constants. -/
structure Boundary (limits : Limits) (bytes lines : Nat) (hidden : Bool) (reported : List Diagnostic)
    (texts : List String) (d : Draft) : Prop where
  ahead : d.ahead = (scan (String.join texts)).tokens.map (Token.shift bytes lines)
  last : d.last.kind = .endOfSource
  running : d.stalled = false
  scope : d.scope = .start limits.locals
  pool : ∃ pool xs, d.HasPool pool ∧ (pool.length < maxConstants →
    d.panicking = hidden ∧ d.diagnostics.toList = reported ∧ pool = Pool.addAll [] xs)

/-- The draft of a piece alone, after its declaration. -/
def alone (limits : Limits) (interner : Interner) (text : String) : Draft :=
  declaration limits.nesting (statement limits.nesting) (start text limits.locals interner)

variable {limits : Limits} {interner : Interner} {text : String} {texts : List String}
  {bytes lines : Nat} {hidden : Bool} {reported : List Diagnostic}

/-- A source of pieces starts before them. -/
theorem start_join (h : ∀ text ∈ texts, IsPiece text) (maxLocals : Nat) (interner : Interner) :
    start (String.join texts) maxLocals interner =
      { blank (String.join texts) maxLocals interner with
        ahead := (scan (String.join texts)).tokens } := by
  refine comeTo_eq_of_error? (blank (String.join texts) maxLocals interner) _ fun t ht => ?_
  obtain hkind | hkind := begins_of_pieces h t ht <;> rw [hkind] <;> rfl

theorem join_singleton (text : String) : String.join [text] = text := by
  rw [String.join_cons, String.join_nil, String.append_empty]

theorem start_of_isPiece (h : IsPiece text) (maxLocals : Nat) (interner : Interner) :
    start text maxLocals interner =
      { blank text maxLocals interner with ahead := (scan text).tokens } := by
  have hpieces : ∀ piece ∈ [text], IsPiece piece := List.forall_mem_singleton.mpr h
  have hstart := start_join hpieces maxLocals interner
  rwa [join_singleton] at hstart

theorem boundary_start (h : ∀ text ∈ texts, IsPiece text) (interner : Interner) :
    Boundary limits 0 0 false [] texts (start (String.join texts) limits.locals interner) := by
  rw [start_join h]
  exact {
    ahead := (List.map_id' (scan (String.join texts)).tokens).symm
    last := rfl
    running := rfl
    scope := rfl
    pool := ⟨[], [], (hasPool_blank (String.join texts) limits.locals interner).of_eq rfl rfl rfl,
      fun _ => ⟨rfl, rfl, rfl⟩⟩ }

/-- The place of the first of some pieces at the end of a source, where code and constants have been
written before. -/
def Site.ofPieces (limits : Limits) (bytes lines : Nat) (hidden : Bool) (reported : List Diagnostic)
    (text : String) (htexts : ∀ text ∈ texts, IsPiece text) (code : Nat) (constants : List Datum) :
    Site where
  bytes := bytes
  lines := lines
  behind := (scan (String.join texts)).tokens.map
    (Token.shift (bytes + text.utf8ByteSize) (lines + text.toList.count '\n'))
  begins := begins_of_pieces_behind htexts _ _
  maxLocals := limits.locals
  code := code
  constants := constants
  hidden := hidden
  alone := []
  reported := reported

/-- The first of the pieces is compiled as it is alone, up to recovery. -/
theorem Boundary.ended (h : Boundary limits bytes lines hidden reported (text :: texts) d)
    (htext : IsPiece text) (htexts : ∀ text ∈ texts, IsPiece text) (interner : Interner) :
    ∃ constants,
      let a := start text limits.locals interner
      Ended (.ofPieces limits bytes lines hidden reported text htexts d.size constants)
        (if a.check .kwVar then a.advance.varDeclaration limits.nesting
          else statement limits.nesting a)
        (if d.check .kwVar then d.advance.varDeclaration limits.nesting
          else statement limits.nesting d) := by
  obtain ⟨first, rest, htokens, hfirst, hrest⟩ := htext.tokens
  obtain ⟨pool, xs, hpool, hroom⟩ := h.pool
  have hahead := h.ahead
  rw [tokens_join_cons htext] at hahead
  refine ⟨xs, ?_⟩
  rw [start_of_isPiece htext]
  refine ended_piece ?_ htokens hfirst hrest fun t ht =>
    kind_ne_of_mem_scan (htokens ▸ List.mem_cons_of_mem _ ht)
  exact {
    previous := by
      show d.current = Token.shift bytes lines (List.headD _ _)
      rw [current, hahead, htokens]
      rfl
    ahead := hahead
    last := ⟨rfl, h.last⟩
    running := ⟨rfl, h.running⟩
    scope := ⟨rfl, h.scope⟩
    size := (Nat.zero_add _).symm
    count := rfl
    pools := by
      refine ⟨[], pool, (hasPool_blank text limits.locals interner).of_eq rfl rfl rfl,
        hpool.of_eq rfl rfl rfl, fun hlt => ?_⟩
      obtain ⟨hpanicking, hreported, heq⟩ := hroom hlt
      refine ⟨⟨hpanicking.trans (Bool.or_false _).symm, [], rfl, ?_⟩, [], rfl, ?_⟩
      · rw [List.map_nil, ite_self, List.append_nil]
        exact hreported
      · rw [List.append_nil]
        exact heq }

/-- **One piece of a source.** It is compiled as it is alone, and then the next one is ahead. -/
theorem Boundary.piece (h : Boundary limits bytes lines hidden reported (text :: texts) d)
    (htext : IsPiece text) (htexts : ∀ text ∈ texts, IsPiece text) (interner : Interner) :
    let found := (alone limits interner text).diagnostics.toList
    (found.length ≤ 2 ∧ (alone limits interner text).panicking = decide (2 ≤ found.length)) ∧
      Boundary limits (bytes + text.utf8ByteSize) (lines + text.toList.count '\n')
        (decide (2 ≤ found.length))
        (reported ++ (found.drop (if hidden then 1 else 0)).map (.shift bytes lines)) texts
        (d.declaration limits.nesting (statement limits.nesting)) := by
  obtain ⟨constants, hended⟩ := h.ended htext htexts interner
  obtain ⟨hafter, hahead⟩ := hended.recovery
  obtain ⟨htwo, hpool⟩ := hended.reports rfl
  have hbehind := hafter.ahead
  rw [hahead, List.map_nil, List.nil_append] at hbehind
  exact ⟨htwo, hbehind, hafter.last.2, hafter.running.2, hafter.scope.2, hpool⟩

/-- At the end of the pieces there is nothing left to compile. -/
theorem Boundary.ahead_eq_nil (h : Boundary limits bytes lines hidden reported [] d) :
    d.ahead = [] := by
  rw [h.ahead, String.join_nil, scan_empty]
  rfl

theorem Boundary.declarations_nil (h : Boundary limits bytes lines hidden reported [] d)
    (compile : Draft → Draft) (bound : List Token) :
    declarations compile .endOfSource bound d = d := by
  have hcheck : d.check .endOfSource = true := by
    rw [check, current, h.ahead_eq_nil, List.headD_nil, h.last]
    rfl
  rw [declarations.eq_def]
  exact if_pos (by rw [hcheck, Bool.or_true])

theorem Boundary.declarations_cons
    (h : Boundary limits bytes lines hidden reported (text :: texts) d) (htext : IsPiece text)
    (compile : Draft → Draft) (t : Token) (bound : List Token) :
    declarations compile .endOfSource (t :: bound) d =
      declarations compile .endOfSource bound (compile d) := by
  obtain ⟨first, rest, htokens, hfirst, -⟩ := htext.tokens
  have hcurrent : d.current.kind = first.kind := by
    rw [current, h.ahead, tokens_join_cons htext, htokens]
    rfl
  have hcheck : d.check .endOfSource = false := by
    rw [check, hcurrent]
    obtain hkind | hkind := hfirst <;> rw [hkind] <;> rfl
  rw [declarations, h.running, hcheck]
  rfl

/-- **All pieces of a source.** -/
theorem Boundary.pieces (h : Boundary limits bytes lines hidden reported texts d)
    (hpieces : ∀ text ∈ texts, IsPiece text) (interner : Interner) {bound : List Token}
    (hbound : texts.length ≤ bound.length) : ∃ bytes' lines' hidden',
      Boundary limits bytes' lines' hidden'
        (reported ++ diagnosticsInTurn (fun text => (alone limits interner text).diagnostics.toList)
          bytes lines hidden texts) []
        (declarations (declaration limits.nesting (statement limits.nesting)) .endOfSource bound d) := by
  induction texts generalizing bytes lines hidden reported d bound with
  | nil =>
    rw [h.declarations_nil, diagnosticsInTurn, List.append_nil]
    exact ⟨bytes, lines, hidden, h⟩
  | cons text texts ih =>
    cases bound with
    | nil => exact absurd hbound (Nat.not_succ_le_zero _)
    | cons t bound =>
      obtain ⟨htext, htexts⟩ := List.forall_mem_cons.mp hpieces
      rw [h.declarations_cons htext, diagnosticsInTurn, ← List.append_assoc]
      exact ih (h.piece htext htexts interner).2 htexts (Nat.le_of_succ_le_succ hbound)

/-- A source of pieces is read up to its end. -/
theorem boundary_body (h : ∀ text ∈ texts, IsPiece text) (limits : Limits) (interner : Interner) :
    ∃ bytes lines hidden, Boundary limits bytes lines hidden
      (diagnosticsInTurn (fun text => (alone limits interner text).diagnostics.toList) 0 0 false texts)
      [] (body limits (start (String.join texts) limits.locals interner)) := by
  refine (boundary_start h interner).pieces h interner ?_
  rw [start_join h]
  exact length_le_tokens_join h

/-- A source that is read up to its end compiles, and what comes then reports nothing. -/
theorem Boundary.exists_compile {source : String}
    (h : Boundary limits bytes lines hidden reported [] (body limits
      (start source limits.locals interner))) :
    ∃ c, compile limits interner source = some c ∧
      c.diagnostics = (body limits (start source limits.locals interner)).diagnostics ∧
      c.chunk.constants = (body limits (start source limits.locals interner)).chunk.constants := by
  have heq : ofSource limits interner source =
      (body limits (start source limits.locals interner)).advance.emitOp .halt := rfl
  have hadvance : (body limits (start source limits.locals interner)).advance =
      { body limits (start source limits.locals interner) with
        previous := (body limits (start source limits.locals interner)).current, ahead := [] } := by
    rw [advance, h.ahead_eq_nil]
    rfl
  rw [compile, heq, hadvance]
  refine ⟨_, if_neg (Bool.eq_false_iff.mp h.running), rfl, rfl⟩

/-- Without lexical errors in the piece, recovery comes upon no problem. -/
theorem alone_calm (limits : Limits) (interner : Interner)
    (h : ∀ t ∈ (scan text).tokens, t.kind.error? = none) :
    (alone limits interner text).panicking = false := by
  have hstart : start text limits.locals interner =
      { blank text limits.locals interner with ahead := (scan text).tokens } :=
    comeTo_eq_of_error? (blank text limits.locals interner) _ fun t ht =>
      h t (List.mem_of_mem_head? ht)
  rw [alone, declaration, hstart]
  have hsteps : ∀ a : Draft, Steps true a (if a.check .kwVar then
      a.advance.varDeclaration limits.nesting else statement limits.nesting a) := by
    intro a
    split
    · exact (steps_advance a).trans (steps_varDeclaration _ _)
    · exact steps_statement a _
  exact recovery_calm fun t ht => h t ((hsteps _).tokens.1.subset ht)

/-- **A piece alone** compiles, with what its declaration reports. -/
theorem exists_compile_piece (htext : IsPiece text) (limits : Limits) (interner : Interner) :
    ∃ c, compile limits interner text = some c ∧
      c.diagnostics = (alone limits interner text).diagnostics ∧
      c.diagnostics.size ≤ 2 ∧ ((∀ t ∈ (scan text).tokens, t.kind.error? = none) →
        c.diagnostics.size ≤ 1) := by
  have hstart : Boundary limits 0 0 false [] [text]
      (start (String.join [text]) limits.locals interner) :=
    boundary_start (List.forall_mem_singleton.mpr htext) interner
  rw [join_singleton] at hstart
  obtain ⟨⟨htwo, hpanicking⟩, hend⟩ := hstart.piece htext (List.forall_mem_nil _) interner
  have hbody : body limits (start text limits.locals interner) = alone limits interner text := by
    obtain ⟨first, rest, htokens, -⟩ := htext.tokens
    have hahead : (start text limits.locals interner).ahead = first :: rest := by
      rw [start_of_isPiece htext, htokens]
    rw [body, hahead, hstart.declarations_cons htext]
    exact hend.declarations_nil _ _
  rw [show declaration _ _ _ = _ from hbody.symm] at hend
  obtain ⟨c, hcompile, hdiagnostics, -⟩ := hend.exists_compile
  rw [hbody] at hdiagnostics
  refine ⟨c, hcompile, hdiagnostics, hdiagnostics ▸ htwo, fun herrors => ?_⟩
  have hone := of_decide_eq_false (hpanicking.symm.trans (alone_calm limits interner herrors))
  rw [hdiagnostics]
  exact Nat.le_of_lt_succ (Nat.lt_of_not_le hone)

theorem diagnosticsOf_piece (htext : IsPiece text) (limits : Limits) (interner : Interner) :
    diagnosticsOf limits interner text = (alone limits interner text).diagnostics.toList := by
  obtain ⟨c, hcompile, hdiagnostics, -⟩ := exists_compile_piece htext limits interner
  rw [diagnosticsOf, hcompile, ← hdiagnostics]

end Draft

open Draft

/-- **Problems of one statement and of the next.** -/
theorem compile_pieces (limits : Limits) (interner : Interner) (texts : List String)
    (h : ∀ text ∈ texts, IsPiece text) :
    (∀ text ∈ texts, ∃ c, compile limits interner text = some c ∧ c.diagnostics.size ≤ 2 ∧
      ((∀ t ∈ (scan text).tokens, t.kind.error? = none) → c.diagnostics.size ≤ 1)) ∧
    ∃ c, compile limits interner (String.join texts) = some c ∧
      (c.chunk.constants.size < maxConstants →
        c.diagnostics.toList =
          diagnosticsInTurn (diagnosticsOf limits interner) 0 0 false texts ∧
        ((∀ text ∈ texts, (diagnosticsOf limits interner text).length ≤ 1) →
          c.diagnostics.toList = diagnosticsSideBySide (diagnosticsOf limits interner) 0 0 texts)) := by
  refine ⟨fun text htext => ?_, ?_⟩
  · obtain ⟨c, hcompile, -, hsize⟩ := exists_compile_piece (h text htext) limits interner
    exact ⟨c, hcompile, hsize⟩
  obtain ⟨bytes, lines, hidden, hend⟩ := boundary_body h limits interner
  obtain ⟨c, hcompile, hdiagnostics, hconstants⟩ := hend.exists_compile
  refine ⟨c, hcompile, fun hroom => ?_⟩
  obtain ⟨pool, xs, hpool, hreports⟩ := hend.pool
  have hinTurn : c.diagnostics.toList =
      diagnosticsInTurn (diagnosticsOf limits interner) 0 0 false texts := by
    rw [hconstants, hpool.size_constants] at hroom
    rw [hdiagnostics, (hreports hroom).2.1]
    exact diagnosticsInTurn_congr (fun text htext => (diagnosticsOf_piece (h text htext) ..).symm) ..
  exact ⟨hinTurn, fun hone => hinTurn.trans (diagnosticsInTurn_eq hone 0 0)⟩

/-- Three pieces, one whole and two with a problem each. -/
theorem compile_pieces_with_problems :
    ∃ c, compile {} .empty (String.join ["print 1 + @ * 2;", "var x = 3;", "print (;"]) = some c ∧
      c.diagnostics.size = 2 ∧ c.diagnostics.toList =
        diagnosticsSideBySide (diagnosticsOf {} .empty) 0 0
          ["print 1 + @ * 2;", "var x = 3;", "print (;"] := by
  obtain ⟨-, c, hcompile, hdiagnostics⟩ :=
    compile_pieces {} .empty ["print 1 + @ * 2;", "var x = 3;", "print (;"] (by decide +kernel)
  have hroom : ∀ c ∈ compile {} .empty (String.join ["print 1 + @ * 2;", "var x = 3;", "print (;"]),
      c.diagnostics.size = 2 ∧ c.chunk.constants.size < maxConstants := by decide +kernel
  obtain ⟨hsize, hroom⟩ := hroom c hcompile
  exact ⟨c, hcompile, hsize, (hdiagnostics hroom).2 (by decide +kernel)⟩

/-- A piece with two problems, of which the second, found in recovery, hides that of the next. -/
theorem compile_pieces_with_hidden_problem :
    (∀ text ∈ ["print 1 1 @;", "print ;"], IsPiece text) ∧
    (diagnosticsOf {} .empty "print 1 1 @;").length = 2 ∧
    ∃ c ∈ compile {} .empty (String.join ["print 1 1 @;", "print ;"]),
      c.chunk.constants.size < maxConstants ∧ c.diagnostics.toList ≠
        diagnosticsSideBySide (diagnosticsOf {} .empty) 0 0 ["print 1 1 @;", "print ;"] := by
  decide +kernel

end Lox
