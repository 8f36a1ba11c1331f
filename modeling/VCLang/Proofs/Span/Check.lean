/-
A check keeps spans nested. What it makes of a node has the span of the node and parts with the same spans; a
conversion has the span of its operand, and a condition that is filled in has that of its loop.
-/
import VCLang.Proofs.Elaboration.Statement
import VCLang.Proofs.Span.Tree
namespace VCLang

variable {text : List Char}

/-- What stands in the place of an expression has the same span and parts with the same spans. -/
theorem Expr.Nested.replace {e e' : Expr} (h : e.Nested text) (hspan : e'.span = e.span) (hparts : e'.parts = e.parts)
    (hchildren : ∀ c ∈ e'.children, c.Nested text) : e'.Nested text := by
  refine .node ?_ hchildren
  rw [hspan, hparts]
  exact h.encloses

/-- What stands in the place of a statement has the same span; a part may be added that has that span as well. -/
theorem Stmt.Nested.replace {s s' : Stmt} (h : s.Nested text) (hspan : s'.span = s.span)
    (hparts : ∀ t ∈ s'.parts, t ∈ s.parts ∨ t = s.span) (hvars : ∀ d ∈ s'.vars, d.Nested text)
    (hexprs : ∀ e ∈ s'.exprs, e.Nested text) (hstmts : ∀ c ∈ s'.stmts, c.Nested text) : s'.Nested text := by
  refine .node ?_ hvars hexprs hstmts
  rw [hspan]
  refine ⟨h.holds.placed, fun t ht => ?_⟩
  rcases hparts t ht with ht | rfl
  · exact h.holds.within t ht
  · exact ⟨h.holds.placed, .refl _⟩

namespace Typing

variable {env env' : Env} {n n' : Nat} {e e' : Expr} {errors : List Error}

/-! ## Expressions -/

theorem Elaborates.span (h : Elaborates env n e e' n' errors) : e'.span = e.span := by
  cases h <;> rfl

theorem Uses.span {ident ident' : Ident} {span : Span} {t : Ty} (h : Uses env ident span ident' t errors) :
    ident'.span = ident.span := by
  cases h <;> rfl

theorem Converted.span (h : Converted n e e' n') : e'.span = e.span := by
  cases h <;> rfl

theorem Converted.nested (h : Converted n e e' n') (he : e.Nested text) : e'.Nested text := by
  cases h with
  | keep => exact he
  | widen => exact .node he.placed.encloses (by simpa [Expr.children] using he)

theorem ElaboratesAll.spans {es es' : List Expr} (h : ElaboratesAll env n es es' n' errors) :
    es'.map Expr.span = es.map Expr.span := by
  induction es generalizing n es' errors with
  | nil =>
    cases h
    rfl
  | cons e es ih =>
    cases h with
    | cons he hc _ hrest => rw [List.map_cons, List.map_cons, hc.span, he.span, ih hrest]

/-- What stands in the place of an expression: what a check makes of it, converted where that is asked for. -/
def ComesFrom (env : Env) (e e' : Expr) : Prop :=
  ∃ n checked n' errors m m', Elaborates env n e checked n' errors ∧ Converted m checked e' m'

theorem Elaborates.comesFrom (h : Elaborates env n e e' n' errors) : ComesFrom env e e' :=
  ⟨n, e', n', errors, n', n', h, .keep⟩

theorem Converted.comesFrom {checked : Expr} {m m' : Nat} (h : Converted m checked e' m')
    (he : Elaborates env n e checked n' errors) : ComesFrom env e e' := ⟨n, checked, n', errors, m, m', he, h⟩

theorem ElaboratesAll.comesFrom {es es' : List Expr} (h : ElaboratesAll env n es es' n' errors) :
    ∀ e' ∈ es', ∃ e ∈ es, ComesFrom env e e' := by
  induction es generalizing n es' errors with
  | nil =>
    cases h
    simp
  | cons e es ih =>
    cases h with
    | cons he hc _ hrest =>
      refine List.forall_mem_cons.2 ⟨⟨e, List.mem_cons_self, hc.comesFrom he⟩, fun e' he' => ?_⟩
      obtain ⟨c, hmem, hcomes⟩ := ih hrest e' he'
      exact ⟨c, List.mem_cons_of_mem _ hmem, hcomes⟩

/-- A check keeps the spans of what stands in an expression, and puts what it makes of the parts in their place. -/
theorem Elaborates.parts (h : Elaborates env n e e' n' errors) :
    e'.parts = e.parts ∧ ∀ c' ∈ e'.children, ∃ c ∈ e.children, ComesFrom env c c' := by
  cases h with
  | literal => exact ⟨rfl, by simp [Expr.children]⟩
  | var huses => exact ⟨by simp [Expr.parts, huses.span], by simp [Expr.children]⟩
  | arrayAccess hi huses =>
    exact ⟨by simp [Expr.parts, huses.span, hi.span], by simp [Expr.children, hi.comesFrom]⟩
  | mainCall _ hargs => exact ⟨by simp [Expr.parts, hargs.spans], hargs.comesFrom⟩
  | call _ huses hargs _ => exact ⟨by simp [Expr.parts, huses.span, hargs.spans], hargs.comesFrom⟩
  | unary ho _ => exact ⟨by simp [Expr.parts, Operator.tagged, ho.span], by simp [Expr.children, ho.comesFrom]⟩
  | unaryError ho _ => exact ⟨by simp [Expr.parts, ho.span], by simp [Expr.children, ho.comesFrom]⟩
  | binary hl hr _ hu hwl hwr =>
    subst hu
    have hleft := hwl.converted int_of_unified.1
    have hright := hwr.converted int_of_unified.2
    exact ⟨by simp [Expr.parts, Operator.tagged, hleft.span, hright.span, hl.span, hr.span],
      by simp [Expr.children, hleft.comesFrom hl, hright.comesFrom hr]⟩
  | binaryError hl hr _ =>
    exact ⟨by simp [Expr.parts, hl.span, hr.span], by simp [Expr.children, hl.comesFrom, hr.comesFrom]⟩
  | assign ht hv hruling hw =>
    have hvalue := hw.converted (assignRuling_accept hruling).1
    exact ⟨by simp [Expr.parts, ht.span, hvalue.span, hv.span],
      by simp [Expr.children, ht.comesFrom, hvalue.comesFrom hv]⟩
  | assignError _ ht hv _ =>
    exact ⟨by simp [Expr.parts, ht.span, hv.span], by simp [Expr.children, ht.comesFrom, hv.comesFrom]⟩
  | initList helements => exact ⟨by simp [Expr.parts, helements.spans], helements.comesFrom⟩
  | intToFloat ho => exact ⟨by simp [Expr.parts, ho.span], by simp [Expr.children, ho.comesFrom]⟩

/-- The check of an expression keeps its spans nested. -/
theorem Elaborates.nested (h : Elaborates env n e e' n' errors) (he : e.Nested text) : e'.Nested text := by
  induction e using Expr.induct_children generalizing env n e' n' errors with
  | h e ih =>
    obtain ⟨hparts, hchildren⟩ := h.parts
    refine he.replace h.span hparts fun c' hc' => ?_
    obtain ⟨c, hc, _, _, _, _, _, _, hchecked, hconverted⟩ := hchildren c' hc'
    exact hconverted.nested (ih c hc hchecked (he.children c hc))

theorem ElaboratesAll.nested {es es' : List Expr} (h : ElaboratesAll env n es es' n' errors)
    (hes : ∀ e ∈ es, e.Nested text) : ∀ e' ∈ es', e'.Nested text := by
  intro e' he'
  obtain ⟨e, he, _, _, _, _, _, _, hchecked, hconverted⟩ := h.comesFrom e' he'
  exact hconverted.nested (hchecked.nested (hes e he))

theorem ElaboratesOption.spans {o o' : Option Expr} (h : ElaboratesOption env n o o' n' errors) :
    o'.toList.map Expr.span = o.toList.map Expr.span := by
  cases h with
  | none => rfl
  | some he hc _ => simp [hc.span, he.span]

theorem ElaboratesOption.nested {o o' : Option Expr} (h : ElaboratesOption env n o o' n' errors)
    (ho : ∀ e ∈ o.toList, e.Nested text) : ∀ e ∈ o'.toList, e.Nested text := by
  cases h with
  | none => exact ho
  | some he hc _ => simpa using hc.nested (he.nested (by simpa using ho))

/-! ## Variables -/

theorem ElaboratesInit.span {d d' : VarDecl} (h : ElaboratesInit env n d d' n' errors) : d'.span = d.span := by
  cases h <;> rfl

theorem ElaboratesInit.nested {d d' : VarDecl} (h : ElaboratesInit env n d d' n' errors) (hd : d.Nested text) :
    d'.Nested text := by
  obtain ⟨hspan, hinit⟩ := hd
  cases h with
  | none => exact ⟨hspan, hinit⟩
  | value he _ hchecked hc _ =>
    rw [he] at hspan hinit
    refine ⟨?_, ?_⟩
    · simpa [hc.span, hchecked.span] using hspan
    · simpa using hc.nested (hchecked.nested (by simpa using hinit))
  | list _ he _ helements _ =>
    rw [he] at hspan hinit
    have hlist := hinit _ rfl
    refine ⟨hspan, ?_⟩
    rintro _ ⟨⟩
    refine hlist.replace rfl ?_ (helements.nested hlist.children)
    rw [Expr.parts, Expr.parts, helements.spans]

theorem ElaboratesVars.spans {ds ds' : List VarDecl} (h : ElaboratesVars env n ds ds' env' n' errors) :
    ds'.map VarDecl.span = ds.map VarDecl.span := by
  induction h with
  | nil => rfl
  | cons hinit _ ih => rw [List.map_cons, List.map_cons, hinit.span, ih]

theorem ElaboratesVars.nested {ds ds' : List VarDecl} (h : ElaboratesVars env n ds ds' env' n' errors)
    (hds : ∀ d ∈ ds, d.Nested text) : ∀ d ∈ ds', d.Nested text := by
  induction h with
  | nil => exact hds
  | cons hinit _ ih =>
    rw [List.forall_mem_cons] at hds
    exact List.forall_mem_cons.2 ⟨hinit.nested hds.1, ih hds.2⟩

/-! ## Statements -/

theorem ElaboratesStmt.span {s s' : Stmt} (h : ElaboratesStmt env n s s' n' errors) : s'.span = s.span := by
  cases h <;> rfl

theorem ElaboratesStmts.spans {ss ss' : List Stmt} (h : ElaboratesStmts env n ss ss' n' errors) :
    ss'.map Stmt.span = ss.map Stmt.span := by
  induction ss generalizing n ss' errors with
  | nil =>
    cases h
    rfl
  | cons s ss ih =>
    cases h with
    | cons hs _ hrest => rw [List.map_cons, List.map_cons, hs.span, ih hrest]

/-- A condition has its own span or that of the loop. -/
theorem ElaboratesForCondition.span {span : Span} {cond : Option Expr} {cond' : Expr}
    (h : ElaboratesForCondition env n span cond cond' n' errors) :
    cond'.span ∈ cond.toList.map Expr.span ∨ cond'.span = span := by
  cases h with
  | omitted => exact .inr rfl
  | given hc _ => exact .inl (by simp [hc.span])

theorem ElaboratesForCondition.nested {span : Span} {cond : Option Expr} {cond' : Expr}
    (h : ElaboratesForCondition env n span cond cond' n' errors) (hspan : span.PlacedIn text)
    (hcond : ∀ e ∈ cond.toList, e.Nested text) : cond'.Nested text := by
  cases h with
  | omitted =>
    obtain ⟨i, j, hij, hj, rfl⟩ := hspan
    exact .node ⟨i, j, hj, rfl, .nil hij⟩ (by simp [Expr.children])
  | given hc _ => exact hc.nested (by simpa using hcond)

/-- The check of a statement keeps its spans nested. -/
def StaysNestedStmt (text : List Char) (s : Stmt) : Prop :=
  ∀ ⦃env n s' n' errors⦄, ElaboratesStmt env n s s' n' errors → s.Nested text → s'.Nested text

theorem ElaboratesStmts.nested {ss ss' : List Stmt} (h : ElaboratesStmts env n ss ss' n' errors)
    (hss : ∀ s ∈ ss, StaysNestedStmt text s) (hnested : ∀ s ∈ ss, s.Nested text) : ∀ s ∈ ss', s.Nested text := by
  induction ss generalizing n ss' errors with
  | nil =>
    cases h
    simp
  | cons s ss ih =>
    rw [List.forall_mem_cons] at hss hnested
    cases h with
    | cons hs _ hrest => exact List.forall_mem_cons.2 ⟨hss.1 hs hnested.1, ih hrest hss.2 hnested.2⟩

/-- The spans of a statement stay nested if those of the statements under it do. -/
theorem ElaboratesStmt.nested_of_stmts {s s' : Stmt} (h : ElaboratesStmt env n s s' n' errors)
    (hstays : ∀ t ∈ s.stmts, StaysNestedStmt text t) (hnested : s.Nested text) : s'.Nested text := by
  have hexprs := hnested.exprs
  have hstmts := hnested.stmts
  cases h with
  | compound hdecls hall =>
    refine hnested.replace rfl (fun t ht => .inl ?_) (hdecls.nested hnested.vars) (by simp [Stmt.exprs])
      (hall.nested hstays hstmts)
    simp only [Stmt.parts, Stmt.vars, Stmt.exprs, Stmt.stmts] at ht ⊢
    rwa [hdecls.spans, hall.spans] at ht
  | ifThen hc _ hthen | whileStmt hc _ hthen =>
    simp only [Stmt.exprs, Stmt.stmts, List.forall_mem_singleton] at hexprs hstmts hstays
    refine hnested.replace rfl (fun t ht => .inl ?_) (by simp [Stmt.vars]) ?_ ?_
    · simpa [Stmt.parts, Stmt.vars, Stmt.exprs, Stmt.stmts, hc.span, hthen.span] using ht
    · simpa [Stmt.exprs] using hc.nested hexprs
    · simpa [Stmt.stmts] using hstays hthen hstmts
  | ifElse hc _ hthen helse =>
    simp only [Stmt.exprs, Stmt.stmts, List.forall_mem_cons] at hexprs hstmts hstays
    obtain ⟨hstaysThen, hstaysElse, -⟩ := hstays
    obtain ⟨hnestedThen, hnestedElse, -⟩ := hstmts
    refine hnested.replace rfl (fun t ht => .inl ?_) (by simp [Stmt.vars]) ?_ ?_
    · simpa [Stmt.parts, Stmt.vars, Stmt.exprs, Stmt.stmts, hc.span, hthen.span, helse.span] using ht
    · simpa [Stmt.exprs] using hc.nested hexprs.1
    · simpa [Stmt.stmts] using ⟨hstaysThen hthen hnestedThen, hstaysElse helse hnestedElse⟩
  | @forStmt _ _ _ _ _ _ _ _ init' _ _ update' cond' _ body' _ _ _ _ hi hc hu hbody =>
    simp only [Stmt.exprs, Stmt.stmts, List.forall_mem_append, List.forall_mem_singleton] at hexprs hstmts hstays
    refine hnested.replace rfl (fun t ht => ?_) (by simp [Stmt.vars]) ?_ ?_
    · rw [Stmt.parts_forStmt, hi.spans, hu.spans, hbody.span] at ht
      rw [Stmt.parts_forStmt]
      simp only [List.mem_append, Option.toList_some, List.map_singleton, List.mem_singleton] at ht ⊢
      rcases ht with ((ht | rfl) | ht) | ht
      · exact .inl (.inl (.inl (.inl ht)))
      · rcases hc.span with hcond | hcond
        · exact .inl (.inl (.inl (.inr hcond)))
        · exact .inr hcond
      · exact .inl (.inl (.inr ht))
      · exact .inl (.inr ht)
    · simp only [Stmt.exprs, List.forall_mem_append]
      exact ⟨⟨hi.nested hexprs.1.1, by simpa using hc.nested hnested.holds.placed hexprs.1.2⟩, hu.nested hexprs.2⟩
    · simpa [Stmt.stmts] using hstays hbody hstmts
  | breakStmt | continueStmt | emptyStmt => exact hnested
  | returnStmt hv =>
    refine hnested.replace rfl (fun t ht => .inl ?_) (by simp [Stmt.vars]) (hv.nested hexprs) (by simp [Stmt.stmts])
    simp only [Stmt.parts, Stmt.vars, Stmt.exprs, Stmt.stmts] at ht ⊢
    rwa [hv.spans] at ht
  | exprStmt he =>
    simp only [Stmt.exprs, List.forall_mem_singleton] at hexprs
    refine hnested.replace rfl (fun t ht => .inl ?_) (by simp [Stmt.vars]) ?_ (by simp [Stmt.stmts])
    · simpa [Stmt.parts, Stmt.vars, Stmt.exprs, Stmt.stmts, he.span] using ht
    · simpa [Stmt.exprs] using he.nested hexprs

theorem staysNestedStmt (s : Stmt) : StaysNestedStmt text s := by
  induction s using Stmt.induct_stmts with
  | h s ih => exact fun _ _ _ _ _ h => h.nested_of_stmts ih

/-! ## Programs -/

theorem ElaboratesFunction.nested {f f' : Function} (h : ElaboratesFunction env n f f' n' errors) (hf : f.Nested text) :
    f'.span = f.span ∧ f'.Nested text := by
  cases h with
  | mk _ hdecls hstmts _ =>
    refine ⟨rfl, hf.span, hf.params, hf.body.replace rfl (fun t ht => .inl ?_) (hdecls.nested hf.body.vars)
      (by simp [Block.toStmt, Stmt.exprs]) (hstmts.nested (fun s _ => staysNestedStmt s) hf.body.stmts)⟩
    simp only [Block.toStmt, Stmt.parts, Stmt.vars, Stmt.exprs, Stmt.stmts] at ht ⊢
    rwa [hdecls.spans, hstmts.spans] at ht

theorem ElaboratesTops.nested {ds ds' : List TopDecl} (h : ElaboratesTops env n ds ds' n' errors)
    (hds : ∀ d ∈ ds, d.Nested text) : ds'.map TopDecl.span = ds.map TopDecl.span ∧ ∀ d ∈ ds', d.Nested text := by
  induction h with
  | nil => exact ⟨rfl, hds⟩
  | func hf _ ih =>
    rw [List.forall_mem_cons] at hds
    obtain ⟨hspans, hnested⟩ := ih hds.2
    cases hds.1 with
    | func hfirst =>
      obtain ⟨hspan, hfunction⟩ := hf.nested hfirst
      exact ⟨congrArg₂ List.cons hspan hspans, List.forall_mem_cons.2 ⟨.func hfunction, hnested⟩⟩
  | var hd _ ih =>
    rw [List.forall_mem_cons] at hds
    obtain ⟨hspans, hnested⟩ := ih hds.2
    cases hds.1 with
    | var hfirst =>
      exact ⟨congrArg₂ List.cons hd.span hspans, List.forall_mem_cons.2 ⟨.var (hd.nested hfirst), hnested⟩⟩

end Typing

end VCLang
