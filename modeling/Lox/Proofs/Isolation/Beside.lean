import Lox.Proofs.Draft.Constants
import Lox.Proofs.Token.Joining

/-!
# A piece of source alone and at its place

A piece of source is compiled twice: alone, and as part of a longer source. `Beside` relates the two
drafts while they read the piece. They read the same tokens, which stand elsewhere in the longer
source, where more tokens come behind. What the piece does is done in both, after what has been done
before it in the longer source.

That holds of the diagnostics only while the constant pool of the longer source has room: a constant
that finds no room there is reported, and alone it is not. The tokens that are read do not depend on
what is reported.

## Main definitions

* `Diagnostic.shift`: a diagnostic, moved on like a token.
* `Draft.Site`: the place of a piece in a longer source.
* `Draft.Beside`: the relation between the two drafts.

## Main results

* `Beside.report`, `Beside.advance`, `Beside.adds`: what keeps the relation.
* `Beside.calm`: the relation between the drafts that both start recovery.
-/

namespace Lox

/-- The diagnostic, moved on by bytes and lines. -/
def Diagnostic.shift (bytes lines : Nat) (x : Diagnostic) : Diagnostic :=
  { x with span := ⟨x.span.start + bytes, x.span.stop + bytes⟩, line := x.line + lines }

namespace Draft

variable {d d' e e' : Draft} {pool pool' : Pool}

/-- The place of a piece of source in a longer one, where what comes behind it starts a statement. -/
structure Site where
  /-- How much of the longer source stands before the piece. -/
  bytes : Nat
  lines : Nat
  /-- The tokens of the longer source behind the piece. -/
  behind : List Token
  begins : ∀ t ∈ behind.head?, t.kind = .kwPrint ∨ t.kind = .kwVar
  maxLocals : Nat
  /-- The size of the code of the longer source before the piece. -/
  code : Nat
  /-- The constants of the longer source before the piece. -/
  constants : List Datum
  /-- Whether reports are suppressed in the longer source from the start. -/
  hidden : Bool
  /-- What has been reported before, alone. -/
  alone : List Diagnostic
  /-- What has been reported before, in the longer source. -/
  reported : List Diagnostic

/-- The token of the longer source that a token of the piece is there. -/
def Site.token (S : Site) : Token → Token := .shift S.bytes S.lines

variable {S : Site}

/-- Both drafts have reported the same since, but for what is hidden in the longer source. -/
structure Reports (S : Site) (d d' : Draft) : Prop where
  panicking : d'.panicking = (S.hidden || d.panicking)
  diagnostics : ∃ found, d.diagnostics.toList = S.alone ++ found ∧
    d'.diagnostics.toList =
      S.reported ++ if S.hidden then [] else found.map (.shift S.bytes S.lines)

/-- The pools have the same constants more than before. -/
def Pools (S : Site) (pool pool' : Pool) : Prop :=
  ∃ xs, pool = Pool.addAll [] xs ∧ pool' = Pool.addAll [] (S.constants ++ xs)

theorem Pools.add (h : Pools S pool pool') (x : Datum) : Pools S (pool.add x) (pool'.add x) := by
  obtain ⟨xs, rfl, rfl⟩ := h
  refine ⟨xs ++ [x], ?_, ?_⟩
  · rw [Pool.addAll_append, Pool.addAll_singleton]
  · rw [← List.append_assoc, Pool.addAll_append _ (S.constants ++ xs), Pool.addAll_singleton]

theorem Pools.length_le (h : Pools S pool pool') : pool.length ≤ pool'.length := by
  obtain ⟨xs, rfl, rfl⟩ := h
  exact Pool.length_addAll_nil_le _ _

/-- The draft of a piece alone, and that of a longer source inside the piece. -/
structure Beside (S : Site) (d d' : Draft) : Prop where
  previous : d'.previous = S.token d.previous
  ahead : d'.ahead = d.ahead.map S.token ++ S.behind
  last : d.last.kind = .endOfSource ∧ d'.last.kind = .endOfSource
  running : d.stalled = false ∧ d'.stalled = false
  scope : d.scope = .start S.maxLocals ∧ d'.scope = .start S.maxLocals
  size : d'.size = d.size + S.code
  /-- Alone, at most one problem is reported. -/
  count : d.diagnostics.size = S.alone.length + if d.panicking then 1 else 0
  pools : ∃ pool pool', d.HasPool pool ∧ d'.HasPool pool' ∧
    (pool'.length < maxConstants → Reports S d d' ∧ Pools S pool pool')

/-! ### Reports -/

theorem Reports.report (h : Reports S d d') (t : Token) (problem : Problem) :
    Reports S (d.report t problem) (d'.report (S.token t) problem) := by
  obtain ⟨hpanicking, found, halone, hreported⟩ := h
  cases hpanic : d.panicking with
  | true =>
    have hpanic' : d'.panicking = true := by rw [hpanicking, hpanic, Bool.or_true]
    rw [report_of_panicking hpanic, report_of_panicking hpanic']
    exact ⟨hpanicking, found, halone, hreported⟩
  | false =>
    have hfound : (d.report t problem).diagnostics.toList =
        S.alone ++ (found ++ [.ofToken t problem]) := by
      rw [report_of_calm hpanic, ← List.append_assoc, ← halone, Array.toList_push]
    rw [hpanic, Bool.or_false] at hpanicking
    cases hhidden : S.hidden with
    | true =>
      rw [hhidden] at hpanicking
      rw [report_of_panicking hpanicking]
      refine ⟨by rw [hpanicking, hhidden, Bool.true_or], _, hfound, hreported.trans ?_⟩
      rw [if_pos hhidden, if_pos hhidden]
    | false =>
      rw [hhidden] at hpanicking
      refine ⟨?_, _, hfound, ?_⟩
      · rw [report_of_calm hpanic, report_of_calm hpanicking, Bool.or_true]
      · rw [if_neg (Bool.eq_false_iff.mp hhidden)] at hreported ⊢
        rw [report_of_calm hpanicking, Array.toList_push, hreported, List.map_append,
          List.append_assoc]
        rfl

/-- The number of diagnostics after a report. -/
theorem count_report {n : Nat} {diagnostics : Array Diagnostic}
    (h : d.diagnostics.size = n + if d.panicking then 1 else 0)
    (hsize : diagnostics.size = d.diagnostics.size + if d.panicking then 0 else 1) :
    diagnostics.size = n + 1 := by
  cases hpanic : d.panicking <;> simp only [hpanic] at h hsize <;> simp at h hsize <;> omega

namespace Beside

theorem report (h : Beside S d d') (t : Token) (problem : Problem) :
    Beside S (d.report t problem) (d'.report (S.token t) problem) := by
  obtain ⟨pool, pool', hpool, hpool', hroom⟩ := h.pools
  have hreports := fun hroom' => (hroom hroom').1.report t problem
  obtain ⟨diagnostics, heq, hsize⟩ := exists_report_eq d t problem
  obtain ⟨diagnostics', heq', -⟩ := exists_report_eq d' (S.token t) problem
  rw [heq, heq'] at hreports ⊢
  exact { h with
    count := count_report h.count hsize
    pools := ⟨pool, pool', hpool.of_eq rfl rfl rfl, hpool'.of_eq rfl rfl rfl,
      fun hroom' => ⟨hreports hroom', (hroom hroom').2⟩⟩ }

/-- Where neither constants nor reports change, nothing does about what is claimed of them. -/
theorem pools_of_eq (h : Beside S d d')
    (heq : e.interner = d.interner ∧ e.chunk.constants = d.chunk.constants ∧
      e.strings = d.strings ∧ e.panicking = d.panicking ∧ e.diagnostics = d.diagnostics)
    (heq' : e'.interner = d'.interner ∧ e'.chunk.constants = d'.chunk.constants ∧
      e'.strings = d'.strings ∧ e'.panicking = d'.panicking ∧ e'.diagnostics = d'.diagnostics) :
    ∃ pool pool', e.HasPool pool ∧ e'.HasPool pool' ∧
      (pool'.length < maxConstants → Reports S e e' ∧ Pools S pool pool') := by
  obtain ⟨hinterner, hconstants, hstrings, hpanicking, hdiagnostics⟩ := heq
  obtain ⟨hinterner', hconstants', hstrings', hpanicking', hdiagnostics'⟩ := heq'
  obtain ⟨pool, pool', hpool, hpool', hroom⟩ := h.pools
  refine ⟨pool, pool', hpool.of_eq hinterner hconstants hstrings,
    hpool'.of_eq hinterner' hconstants' hstrings', fun hlt => ⟨⟨?_, ?_⟩, (hroom hlt).2⟩⟩
  · rw [hpanicking, hpanicking']
    exact (hroom hlt).1.panicking
  · rw [hdiagnostics, hdiagnostics']
    exact (hroom hlt).1.diagnostics

/-! ### Tokens -/

theorem comeTo (h : Beside S d d') (tokens : List Token) :
    Beside S (d.comeTo tokens) (d'.comeTo (tokens.map S.token ++ S.behind)) := by
  have hheld : ∀ {rest rest' : List Token} {d d' : Draft}, Beside S d d' →
      rest' = rest.map S.token ++ S.behind →
      Beside S { d with ahead := rest } { d' with ahead := rest' } := by
    intro rest rest' d d' h hrest
    exact { h with
      ahead := hrest
      pools := h.pools_of_eq ⟨rfl, rfl, rfl, rfl, rfl⟩ ⟨rfl, rfl, rfl, rfl, rfl⟩ }
  induction tokens generalizing d d' with
  | nil =>
    have hbehind : ∀ t ∈ S.behind.head?, t.kind.error? = none := by
      intro t ht
      obtain hkind | hkind := S.begins t ht <;> rw [hkind] <;> rfl
    rw [List.map_nil, List.nil_append, comeTo_eq_of_error? d' _ hbehind]
    exact hheld h rfl
  | cons t tokens ih =>
    rw [List.map_cons, List.cons_append, Draft.comeTo, Draft.comeTo]
    have hkind : (S.token t).kind = t.kind := rfl
    rw [hkind]
    split
    · exact ih (h.report t _)
    · exact hheld h rfl

theorem current_eq (h : Beside S d d') (hahead : d.ahead ≠ []) : d'.current = S.token d.current := by
  obtain ⟨t, ts, hcons⟩ := List.exists_cons_of_ne_nil hahead
  rw [current, current, h.ahead, hcons]
  rfl

/-- At the end of the piece the longer source is at its end too or at the next statement. -/
theorem current_of_nil (h : Beside S d d') (hahead : d.ahead = []) :
    d.current.kind = .endOfSource ∧ d'.current.kind ∈ [.endOfSource, .kwPrint, .kwVar] := by
  have hbehind := h.ahead
  rw [hahead, List.map_nil, List.nil_append] at hbehind
  rw [current, current, hahead, hbehind, List.headD_nil]
  refine ⟨h.last.1, ?_⟩
  cases hcons : S.behind with
  | nil => exact List.mem_cons.mpr (.inl h.last.2)
  | cons t ts =>
    obtain hkind | hkind := S.begins t (by rw [hcons]; rfl)
    · rw [List.headD_cons, hkind]
      decide
    · rw [List.headD_cons, hkind]
      decide

/-- Where the tokens passed correspond, so do those come to. -/
theorem advance_of_passed
    (h : Beside S { d with previous := d.current } { d' with previous := d'.current })
    (hahead : d.ahead ≠ []) : Beside S d.advance d'.advance := by
  have hpair : d'.ahead = d.ahead.map S.token ++ S.behind := h.ahead
  have htail : d'.ahead.tail = d.ahead.tail.map S.token ++ S.behind := by
    obtain ⟨t, ts, hcons⟩ := List.exists_cons_of_ne_nil hahead
    rw [hpair, hcons]
    rfl
  have hnext := h.comeTo d.ahead.tail
  rwa [← htail] at hnext

theorem advance (h : Beside S d d') (hahead : d.ahead ≠ []) : Beside S d.advance d'.advance :=
  advance_of_passed
    { h with
      previous := h.current_eq hahead
      pools := h.pools_of_eq ⟨rfl, rfl, rfl, rfl, rfl⟩ ⟨rfl, rfl, rfl, rfl, rfl⟩ }
    hahead

/-! ### Code and constants -/

theorem emitByte (h : Beside S d d') (byte byte' : UInt8) :
    Beside S (d.emitByte byte) (d'.emitByte byte') :=
  { h with
    size := by
      have hsize := h.size
      simp only [Draft.size, Chunk.size, Draft.emitByte, Chunk.write, Array.size_push] at hsize ⊢
      omega
    pools := h.pools_of_eq ⟨rfl, rfl, rfl, rfl, rfl⟩ ⟨rfl, rfl, rfl, rfl, rfl⟩ }

theorem patch (h : Beside S d d') (offset offset' distance : Nat) :
    Beside S { d with chunk := d.chunk.patch offset distance }
      { d' with chunk := d'.chunk.patch offset' distance } :=
  { h with
    size := by
      have hsize := h.size
      simp only [Draft.size, Chunk.size, Chunk.patch, Array.size_setIfInBounds] at hsize ⊢
      exact hsize
    pools := h.pools_of_eq ⟨rfl, rfl, rfl, rfl, rfl⟩ ⟨rfl, rfl, rfl, rfl, rfl⟩ }

end Beside

/-- What adding a constant to a pool comes to: it is there, or it finds no room and that is
reported. -/
def Adds (d : Draft) (pool : Pool) (x : Datum) (e : Draft) : Prop :=
  ∃ interner strings constants panicking diagnostics,
    e = { d with
      interner, strings, panicking, diagnostics, chunk := { d.chunk with constants } } ∧
    ((pool.add x).length ≤ maxConstants ∧ e.HasPool (pool.add x) ∧
        panicking = d.panicking ∧ diagnostics = d.diagnostics ∨
      ¬(pool.add x).length ≤ maxConstants ∧ e.HasPool pool ∧ panicking = true ∧
        diagnostics.size = d.diagnostics.size + if d.panicking then 0 else 1)

theorem Adds.exists_pool {x : Datum} (h : Adds d pool x e) : ∃ pool, e.HasPool pool := by
  obtain ⟨_, _, _, _, _, -, ⟨-, hpool, -⟩ | ⟨-, hpool, -⟩⟩ := h
  · exact ⟨_, hpool⟩
  · exact ⟨_, hpool⟩

theorem HasPool.adds_stringConstant (h : d.HasPool pool) (text : String) :
    Adds d pool (.text text) (d.stringConstant text).2 := by
  by_cases hfits : (pool.add (.text text)).length ≤ maxConstants
  · obtain ⟨interner, strings, constants, heq, hpool⟩ := h.stringConstant_eq text hfits
    rw [heq]
    exact ⟨interner, strings, constants, _, _, rfl, .inl ⟨hfits, hpool, rfl, rfl⟩⟩
  · rw [h.stringConstant_full text hfits]
    obtain ⟨diagnostics, heq, hsize⟩ := exists_report_eq
      { d with interner := (d.interner.intern text).2 } d.previous .tooManyConstants
    rw [show Draft.failAtPrevious _ _ = _ from heq]
    exact ⟨_, _, _, _, diagnostics, rfl,
      .inr ⟨hfits, (h.intern text).of_eq rfl rfl rfl, rfl, hsize⟩⟩

theorem HasPool.adds_number (h : d.HasPool pool) (value : Float) :
    Adds d pool (.number value) (d.addConstant (.number value)).2 := by
  have hlength : (pool.add (.number value)).length = pool.length + 1 := List.length_append
  by_cases hroom : pool.length < maxConstants
  · rw [h.addConstant_eq hroom]
    exact ⟨_, _, _, _, _, rfl,
      .inl ⟨by rwa [hlength], h.push hroom (.number value) rfl, rfl, rfl⟩⟩
  · rw [h.addConstant_full hroom]
    obtain ⟨diagnostics, heq, hsize⟩ := exists_report_eq d d.previous .tooManyConstants
    rw [show d.failAtPrevious _ = _ from heq]
    exact ⟨_, _, _, _, diagnostics, rfl,
      .inr ⟨by rwa [hlength], h.of_eq rfl rfl rfl, rfl, hsize⟩⟩

/-- **Adding a constant.** In the longer source it may find no room where alone it does. Not the
other way round: what has room among the constants of the longer source has it alone. -/
theorem Beside.adds {x : Datum} (h : Beside S d d')
    (he : ∀ pool, d.HasPool pool → Adds d pool x e)
    (he' : ∀ pool, d'.HasPool pool → Adds d' pool x e') : Beside S e e' := by
  obtain ⟨pool, pool', hpool, hpool', hroom⟩ := h.pools
  obtain ⟨poolAfter, hpoolAfter⟩ := (he pool hpool).exists_pool
  obtain ⟨interner, strings, constants, panicking, diagnostics, rfl, hadds⟩ := he pool hpool
  obtain ⟨interner', strings', constants', panicking', diagnostics', rfl, hadds'⟩ := he' pool' hpool'
  have hcount : diagnostics.size = S.alone.length + if panicking then 1 else 0 := by
    obtain ⟨-, -, rfl, rfl⟩ | ⟨-, -, rfl, hsize⟩ := hadds
    · exact h.count
    · exact count_report h.count hsize
  have hle : pool'.length ≤ (pool'.add x).length := (Pool.prefix_add pool' x).length_le
  refine { h with count := hcount, pools := ?_ }
  obtain ⟨hfits', hafter', rfl, rfl⟩ | ⟨hfull', hafter', -, -⟩ := hadds'
  · obtain ⟨hfits, hafter, rfl, rfl⟩ | ⟨hfull, hafter, -, -⟩ := hadds
    · refine ⟨_, _, hafter, hafter', fun hlt => ?_⟩
      obtain ⟨⟨hpanicking, hdiagnostics⟩, hpools⟩ := hroom (Nat.lt_of_le_of_lt hle hlt)
      exact ⟨⟨hpanicking, hdiagnostics⟩, hpools.add x⟩
    · refine ⟨_, _, hafter, hafter', fun hlt => absurd ?_ hfull⟩
      exact ((hroom (Nat.lt_of_le_of_lt hle hlt)).2.add x).length_le.trans hfits'
  · exact ⟨_, _, hpoolAfter, hafter', fun hlt =>
      absurd ((Pool.length_add_le pool' x).trans hlt) hfull'⟩

/-! ### Recovery -/

/-- The same place, from the moment on at which recovery starts. -/
def Site.after (S : Site) (d d' : Draft) : Site :=
  { S with
    hidden := false
    alone := d.diagnostics.toList
    reported := d'.diagnostics.toList }

/-- **Drafts that start recovery.** What has been hidden before is not any more. -/
theorem Beside.calm (h : Beside S d d') :
    Beside (S.after d d') { d with panicking := false } { d' with panicking := false } := by
  obtain ⟨pool, pool', hpool, hpool', hroom⟩ := h.pools
  exact { h with
    count := rfl
    pools := ⟨pool, pool', hpool.of_eq rfl rfl rfl, hpool'.of_eq rfl rfl rfl, fun hlt =>
      ⟨⟨rfl, [], (List.append_nil _).symm, (List.append_nil _).symm⟩, (hroom hlt).2⟩⟩ }

end Draft

end Lox
