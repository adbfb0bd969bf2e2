import Lox.Compilation.Renaming
import Lox.Syntax.Grammar
import Mathlib.Data.List.Forall2

/-!
# What renamed tokens spell

Tokens of the same kinds spell the same tree but for its names, numbers and strings. If the names
are changed in one way throughout, they spell the tree with its names changed.

## Main definitions

* `Token.Renamed`: a token with its name changed.

## Main results

* `Expr.Derives.rename`, `Stmt.Derives.rename`, `Decl.DerivesAll.rename`: what renamed tokens spell.
* `Decl.renameAll_id`: a program whose names are left as they are.
-/

namespace Lox

/-- The token `t'` is `t` with its name changed. -/
structure Token.Renamed (f : String → String) (t t' : Token) : Prop where
  kind : t'.kind = t.kind
  lexeme : t'.lexeme = if t.kind = .identifier then f t.lexeme else t.lexeme

/-- A list related to two lists, one behind the other, consists of two lists as well. -/
theorem exists_append_of_forall₂ {α : Type} {R : α → α → Prop} {l m l' : List α}
    (h : List.Forall₂ R (l ++ m) l') :
    ∃ k n, l' = k ++ n ∧ List.Forall₂ R l k ∧ List.Forall₂ R m n :=
  ⟨l'.take l.length, l'.drop l.length, (List.take_append_drop ..).symm,
    (List.forall₂_take_append l' l m h.flip).flip, (List.forall₂_drop_append l' l m h.flip).flip⟩

section Renamed

variable {f : String → String} {t t' : Token} {ts ts' : List Token}

theorem Token.Renamed.name (h : t.Renamed f t') (hkind : t.kind = .identifier) :
    t'.lexeme = f t.lexeme := by
  rw [h.lexeme, if_pos hkind]

theorem Token.Renamed.text (h : t.Renamed f t') (hkind : t.kind ≠ .identifier) :
    t'.lexeme = t.lexeme := by
  rw [h.lexeme, if_neg hkind]

/-- Whether an `else` behind a statement belongs to it does not depend on names. -/
theorem endsOpen_rename (f : String → String) : (s : Stmt) → (s.rename f).endsOpen = s.endsOpen
  | .ifThen _ _ | .expression _ | .print _ | .block _ => rfl
  | .ifElse _ _ other => endsOpen_rename f other
  | .whileLoop _ body => endsOpen_rename f body
  | .forLoop _ _ _ body => endsOpen_rename f body

open Token (Renamed)

theorem Expr.Derives.rename {level : Precedence} {e : Expr} (h : e.Derives level ts)
    (hts : List.Forall₂ (Renamed f) ts ts') : (e.rename f).Derives level ts' := by
  induction h generalizing ts' with
  | literal kind =>
    obtain _ | ⟨ht, ⟨⟩⟩ := hts
    exact .literal (ht.kind.trans kind)
  | number kind =>
    obtain _ | ⟨ht, ⟨⟩⟩ := hts
    rw [Expr.rename, ← ht.text (by rw [kind]; nofun)]
    exact .number (ht.kind.trans kind)
  | string kind lexeme =>
    obtain _ | ⟨ht, ⟨⟩⟩ := hts
    exact .string (ht.kind.trans kind) ((ht.text (by rw [kind]; nofun)).trans lexeme)
  | «variable» kind =>
    obtain _ | ⟨ht, ⟨⟩⟩ := hts
    rw [Expr.rename, ← ht.name kind]
    exact .variable (ht.kind.trans kind)
  | assign loose name sign right ih =>
    obtain _ | ⟨ht, hrest⟩ := hts
    obtain _ | ⟨hu, hrest⟩ := hrest
    rw [Expr.rename, ← ht.name name]
    exact .assign loose (ht.kind.trans name) (hu.kind.trans sign) (ih hrest)
  | group opening derives closing ih =>
    obtain _ | ⟨ht, hrest⟩ := hts
    obtain ⟨inner, _, rfl, hinner, hrest⟩ := exists_append_of_forall₂ hrest
    obtain _ | ⟨hu, ⟨⟩⟩ := hrest
    exact .group (ht.kind.trans opening) (ih hinner) (hu.kind.trans closing)
  | unary loose sign derives ih =>
    obtain _ | ⟨ht, hrest⟩ := hts
    exact .unary loose (ht.kind.trans sign) (ih hrest)
  | binary loose lefts sign rights ih ih' =>
    obtain ⟨left, _, rfl, hleft, hrest⟩ := exists_append_of_forall₂ hts
    obtain _ | ⟨ht, hright⟩ := hrest
    exact .binary loose (ih hleft) (ht.kind.trans sign) (ih' hright)
  | and loose lefts sign rights ih ih' =>
    obtain ⟨left, _, rfl, hleft, hrest⟩ := exists_append_of_forall₂ hts
    obtain _ | ⟨ht, hright⟩ := hrest
    exact .and loose (ih hleft) (ht.kind.trans sign) (ih' hright)
  | or loose lefts sign rights ih ih' =>
    obtain ⟨left, _, rfl, hleft, hrest⟩ := exists_append_of_forall₂ hts
    obtain _ | ⟨ht, hright⟩ := hrest
    exact .or loose (ih hleft) (ht.kind.trans sign) (ih' hright)

theorem Expr.DerivesOption.rename {e : Option Expr} (h : Expr.DerivesOption e ts)
    (hts : List.Forall₂ (Renamed f) ts ts') :
    Expr.DerivesOption (e.map (·.rename f)) ts' := by
  cases h with
  | none =>
    obtain _ | _ := hts
    exact .none
  | some derives => exact .some (derives.rename hts)

theorem Decl.DerivesVar.rename {name : String} {value : Option Expr}
    (h : Decl.DerivesVar name value ts) (hts : List.Forall₂ (Renamed f) ts ts') :
    Decl.DerivesVar (f name) (value.map (·.rename f)) ts' := by
  cases h with
  | plain hname closing =>
    obtain _ | ⟨ht, hrest⟩ := hts
    obtain _ | ⟨hu, ⟨⟩⟩ := hrest
    rw [← ht.name hname]
    exact .plain (ht.kind.trans hname) (hu.kind.trans closing)
  | initialized hname sign value closing =>
    obtain _ | ⟨ht, hrest⟩ := hts
    obtain _ | ⟨hu, hrest⟩ := hrest
    obtain ⟨tokens, _, rfl, hvalue, hrest⟩ := exists_append_of_forall₂ hrest
    obtain _ | ⟨hv, ⟨⟩⟩ := hrest
    rw [← ht.name hname]
    exact .initialized (ht.kind.trans hname) (hu.kind.trans sign) (value.rename hvalue)
      (hv.kind.trans closing)

theorem ForInit.Derives.rename {first : ForInit} (h : first.Derives ts)
    (hts : List.Forall₂ (Renamed f) ts ts') : (first.rename f).Derives ts' := by
  cases h with
  | none closing =>
    obtain _ | ⟨ht, ⟨⟩⟩ := hts
    exact .none (ht.kind.trans closing)
  | var keyword derives =>
    obtain _ | ⟨ht, hrest⟩ := hts
    exact .var (ht.kind.trans keyword) (derives.rename hrest)
  | expression derives closing =>
    obtain ⟨tokens, _, rfl, hvalue, hrest⟩ := exists_append_of_forall₂ hts
    obtain _ | ⟨ht, ⟨⟩⟩ := hrest
    exact .expression (derives.rename hvalue) (ht.kind.trans closing)

mutual

theorem Stmt.Derives.rename {s : Stmt} {ts ts' : List Token} (h : s.Derives ts)
    (hts : List.Forall₂ (Renamed f) ts ts') : (s.rename f).Derives ts' := by
  cases h with
  | expression value closing =>
    obtain ⟨tokens, _, rfl, hvalue, hrest⟩ := exists_append_of_forall₂ hts
    obtain _ | ⟨ht, ⟨⟩⟩ := hrest
    exact .expression (value.rename hvalue) (ht.kind.trans closing)
  | print keyword value closing =>
    obtain _ | ⟨ht, hrest⟩ := hts
    obtain ⟨tokens, _, rfl, hvalue, hrest⟩ := exists_append_of_forall₂ hrest
    obtain _ | ⟨hu, ⟨⟩⟩ := hrest
    exact .print (ht.kind.trans keyword) (value.rename hvalue) (hu.kind.trans closing)
  | block opening body closing =>
    obtain _ | ⟨ht, hrest⟩ := hts
    obtain ⟨tokens, _, rfl, hbody, hrest⟩ := exists_append_of_forall₂ hrest
    obtain _ | ⟨hu, ⟨⟩⟩ := hrest
    exact .block (ht.kind.trans opening) (Decl.DerivesAll.rename body hbody) (hu.kind.trans closing)
  | ifThen keyword opening condition closing body =>
    obtain _ | ⟨ht, hrest⟩ := hts
    obtain _ | ⟨hu, hrest⟩ := hrest
    obtain ⟨tokens, _, rfl, hcondition, hrest⟩ := exists_append_of_forall₂ hrest
    obtain _ | ⟨hv, hbody⟩ := hrest
    exact .ifThen (ht.kind.trans keyword) (hu.kind.trans opening) (condition.rename hcondition)
      (hv.kind.trans closing) (Stmt.Derives.rename body hbody)
  | ifElse keyword opening condition closing body nearest otherwise other =>
    obtain _ | ⟨ht, hrest⟩ := hts
    obtain _ | ⟨hu, hrest⟩ := hrest
    obtain ⟨tokens, _, rfl, hcondition, hrest⟩ := exists_append_of_forall₂ hrest
    obtain _ | ⟨hv, hlater⟩ := hrest
    obtain ⟨inner, _, rfl, hbody, hlater⟩ := exists_append_of_forall₂ hlater
    obtain _ | ⟨hw, hother⟩ := hlater
    exact .ifElse (ht.kind.trans keyword) (hu.kind.trans opening) (condition.rename hcondition)
      (hv.kind.trans closing) (Stmt.Derives.rename body hbody) ((endsOpen_rename f _).trans nearest)
      (hw.kind.trans otherwise) (Stmt.Derives.rename other hother)
  | whileLoop keyword opening condition closing body =>
    obtain _ | ⟨ht, hrest⟩ := hts
    obtain _ | ⟨hu, hrest⟩ := hrest
    obtain ⟨tokens, _, rfl, hcondition, hrest⟩ := exists_append_of_forall₂ hrest
    obtain _ | ⟨hv, hbody⟩ := hrest
    exact .whileLoop (ht.kind.trans keyword) (hu.kind.trans opening) (condition.rename hcondition)
      (hv.kind.trans closing) (Stmt.Derives.rename body hbody)
  | forLoop keyword opening initial test semicolon step closing body =>
    obtain _ | ⟨ht, hrest⟩ := hts
    obtain _ | ⟨hu, hrest⟩ := hrest
    obtain ⟨firsts, _, rfl, hfirst, hclauses⟩ := exists_append_of_forall₂ hrest
    obtain ⟨tests, _, rfl, htest, hlater⟩ := exists_append_of_forall₂ hclauses
    obtain _ | ⟨hv, hlater⟩ := hlater
    obtain ⟨steps, _, rfl, hstep, hlast⟩ := exists_append_of_forall₂ hlater
    obtain _ | ⟨hw, hbody⟩ := hlast
    exact .forLoop (ht.kind.trans keyword) (hu.kind.trans opening) (initial.rename hfirst)
      (test.rename htest) (hv.kind.trans semicolon) (step.rename hstep) (hw.kind.trans closing)
      (Stmt.Derives.rename body hbody)

theorem Decl.Derives.rename {d : Decl} {ts ts' : List Token} (h : d.Derives ts)
    (hts : List.Forall₂ (Renamed f) ts ts') : (d.rename f).Derives ts' := by
  cases h with
  | var keyword derives =>
    obtain _ | ⟨ht, hrest⟩ := hts
    exact .var (ht.kind.trans keyword) (derives.rename hrest)
  | statement derives => exact .statement (Stmt.Derives.rename derives hts)

/-- **What renamed tokens spell** is the program with its names changed. -/
theorem Decl.DerivesAll.rename {ds : List Decl} {ts ts' : List Token} (h : Decl.DerivesAll ds ts)
    (hts : List.Forall₂ (Renamed f) ts ts') : Decl.DerivesAll (Decl.renameAll f ds) ts' := by
  cases h with
  | nil =>
    obtain _ | _ := hts
    exact .nil
  | cons head tail =>
    obtain ⟨first, _, rfl, hfirst, hrest⟩ := exists_append_of_forall₂ hts
    exact .cons (Decl.Derives.rename head hfirst) (Decl.DerivesAll.rename tail hrest)

end

end Renamed

/-! ### Names left as they are -/

theorem Expr.rename_id (e : Expr) : e.rename id = e := by
  induction e <;> simp_all [Expr.rename]

theorem Expr.map_rename_id (e : Option Expr) : e.map (·.rename id) = e := by
  cases e <;> simp [Expr.rename_id]

theorem ForInit.rename_id (first : ForInit) : first.rename id = first := by
  cases first <;> simp [ForInit.rename, Expr.rename_id]

mutual

theorem Stmt.rename_id : (s : Stmt) → s.rename id = s
  | .expression _ | .print _ => by rw [Stmt.rename, Expr.rename_id]
  | .block ds => by rw [Stmt.rename, Decl.renameAll_id ds]
  | .ifThen _ s | .whileLoop _ s => by rw [Stmt.rename, Expr.rename_id, Stmt.rename_id s]
  | .ifElse _ s s' => by rw [Stmt.rename, Expr.rename_id, Stmt.rename_id s, Stmt.rename_id s']
  | .forLoop _ _ _ s => by
    rw [Stmt.rename, ForInit.rename_id, Expr.map_rename_id, Expr.map_rename_id, Stmt.rename_id s]

theorem Decl.rename_id : (d : Decl) → d.rename id = d
  | .var _ _ => by rw [Decl.rename, Expr.map_rename_id, id]
  | .statement s => by rw [Decl.rename, Stmt.rename_id s]

theorem Decl.renameAll_id : (ds : List Decl) → Decl.renameAll id ds = ds
  | [] => rfl
  | d :: ds => by rw [Decl.renameAll, Decl.rename_id d, Decl.renameAll_id ds]

end

end Lox
