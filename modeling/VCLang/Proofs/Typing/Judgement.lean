/-
The check decides the static semantics: it reports nothing about a statement, a function or a program
exactly if the judgements have a derivation for it.
-/
import VCLang.Compile
import VCLang.Proofs.Grammar.Built
import VCLang.Proofs.Tree.Parts
import VCLang.Proofs.Typing.Program
namespace VCLang

open Static Check

namespace Typing

/-! ## Statements -/

/-- A place in a function, in or outside a loop, where every name is of a type in which nothing went wrong. -/
structure Checker.In (k : Checker) (f : Prototype) (inLoop : Bool) : Prop where
  function : k.function = some f
  result : f.ty.Proper
  scope : k.env.scope.Proper
  loop : k.loopDepth ≠ 0 ↔ inLoop = true

/-- What a function means for the statements in it. -/
def site (f : Prototype) : Site := ⟨f.ident.spelling, f.ty⟩

variable {k : Checker} {f : Prototype} {inLoop : Bool}

theorem Checker.In.next (h : k.In f inLoop) (n : Nat) : Checker.In { k with nextExpr := n } f inLoop :=
  ⟨h.function, h.result, h.scope, h.loop⟩

theorem Checker.In.enter (h : k.In f inLoop) (n : Nat) :
    Checker.In { k with loopDepth := k.loopDepth + 1, nextExpr := n } f true :=
  ⟨h.function, h.result, h.scope, by simp⟩

theorem Checker.In.inner (h : k.In f inLoop) : Checker.In { k with env := k.env.openScope } f inLoop :=
  ⟨h.function, h.result, h.scope.openScope, h.loop⟩

theorem Checker.In.behind (h : k.In f inLoop) {ds ds' : List VarDecl} {k' : Checker} (hds : ∀ d ∈ ds, d.Plain)
    (hrun : (checkVarDecls ds).Runs k ds' k') : k'.In f inLoop := by
  obtain ⟨-, hdepth, hfunction⟩ := frame_checkVarDecls hrun
  exact ⟨hfunction.trans h.function, h.result, proper_behind hrun h.scope hds, hdepth ▸ h.loop⟩

theorem isBoolean_iff {t : Ty} (ht : t.Proper) : (t.isBoolean || t.isError) = true ↔ t = .boolean := by
  rw [ht.isError]
  cases t <;> simp [Ty.isBoolean]

theorem runsCondition_iff {env : Env} {cond : Expr} (hΓ : env.scope.Proper) (hc : cond.Plain) (n : Nat) :
    (∃ cond' n', RunsCondition env n cond cond' n') ↔ HasType env.scope cond .boolean := by
  have hfinds := finds hΓ hc
  constructor
  · rintro ⟨cond', n', hrun, h⟩
    have ht := hfinds.sound hrun
    rwa [(isBoolean_iff (ht.proper hΓ)).1 h] at ht
  · intro ht
    obtain ⟨cond', n', hrun, hty⟩ := hfinds.complete ht n
    exact ⟨cond', n', hrun, (isBoolean_iff (hty ▸ trivial)).2 hty⟩

theorem runsForCondition_iff {env : Env} {span : Span} {cond : Option Expr} (hΓ : env.scope.Proper)
    (hc : ∀ e ∈ cond, e.Plain) (n : Nat) :
    (∃ cond' n', RunsForCondition env n span cond cond' n') ↔ ∀ e ∈ cond, HasType env.scope e .boolean := by
  cases cond with
  | none =>
    simp only [Option.not_mem_none, false_implies, implies_true, iff_true]
    exact ⟨_, _, .omitted⟩
  | some cond =>
    have hcond := runsCondition_iff hΓ (hc cond rfl) n
    simp only [Option.mem_some_iff, forall_eq']
    rw [← hcond]
    constructor
    · rintro ⟨cond', n', h⟩
      cases h with
      | given h => exact ⟨cond', n', h⟩
    · rintro ⟨cond', n', h⟩
      exact ⟨cond', n', .given h⟩

theorem mainReturnFault?_iff {t : Ty} (ht : t.Proper) : mainReturnFault? t = none ↔ t = .int := by
  unfold mainReturnFault?
  rw [ht.isError]
  cases t <;> simp [Ty.isInt]

theorem stores_void {t : Ty} (h : Stores t .void) : t = .void := by
  cases h with
  | same => rfl

theorem runsReturn_iff {value : Option Expr} (hk : k.In f inLoop) (hv : ∀ e ∈ value, e.Plain) :
    (∃ value' n', RunsReturn k value value' n') ↔ Returned (site f) k.env.scope value := by
  constructor
  · rintro ⟨value', n', h⟩
    cases h with
    | outside hf _ => cases hf.symm.trans hk.function
    | main hf hmain hrun hfault =>
      cases hf.symm.trans hk.function
      cases hrun with
      -- a `return` of nothing is of type `void`, which is no `int`
      | none => cases hfault
      | @some e e' _ hrun =>
        have ht := (finds hk.scope (hv e rfl)).sound hrun
        rw [(mainReturnFault?_iff (ht.proper hk.scope)).1 hfault] at ht
        exact .main hmain ht
    | nothing hf hmain hassign =>
      cases hf.symm.trans hk.function
      have hstores : Stores f.ty .void := (assignable_iff hk.result (show Ty.Proper .void from trivial)).1 hassign
      exact .nothing hmain (stores_void hstores)
    | @value _ e e' n' hf hmain hstore =>
      cases hf.symm.trans hk.function
      obtain ⟨s, hs, hstores⟩ := (runsStore_iff hk.scope hk.result (hv e rfl) _).1 ⟨e', n', hstore⟩
      exact .value hmain hs hstores
  · intro h
    cases h with
    | @main e hmain ht =>
      obtain ⟨e', n', hrun, hty⟩ := (finds hk.scope (hv e rfl)).complete ht k.nextExpr
      refine ⟨_, n', .main hk.function hmain (.some hrun) ?_⟩
      rw [valueType, hty]
      rfl
    | @value e t hmain ht hstores =>
      obtain ⟨e', n', hstore⟩ := (runsStore_iff hk.scope hk.result (hv e rfl) k.nextExpr).2 ⟨t, ht, hstores⟩
      exact ⟨_, n', .value hk.function hmain hstore⟩
    | nothing hmain hvoid =>
      have hvoid : f.ty = .void := hvoid
      exact ⟨none, _, .nothing hk.function hmain (by rw [hvoid]; rfl)⟩

theorem allReached_cons {s : Stmt} {ss : List Stmt} :
    AllReached (s :: ss) ↔ Reached .standard s ss ∧ AllReached ss := by
  constructor
  · intro h
    constructor
    · intro _ hreturn
      cases ss with
      | nil => rfl
      | cons next ss => cases hreturn.symm.trans (h [] s next ss rfl)
    · intro front s' next back heq
      exact h (s :: front) s' next back (by rw [heq]; rfl)
  · rintro ⟨hs, hss⟩ front s' next back heq
    cases front with
    | nil =>
      obtain ⟨rfl, rfl⟩ := List.cons.inj heq
      by_contra hreturn
      cases hs rfl (by simpa using hreturn)
    | cons _ front => exact hss front s' next back (List.cons.inj heq).2

/-- The check of a statement decides whether it is right, wherever it is in a function. -/
def Decides (s : Stmt) : Prop :=
  ∀ {k f inLoop}, Checker.In k f inLoop →
    ((∃ s' n', RunsStmt .standard k s s' n') ↔ Right (site f) k.env.scope inLoop s)

theorem runsStmts_iff_of {ss : List Stmt} (h : ∀ s ∈ ss, Decides s) (hk : k.In f inLoop) :
    (∃ ss' n', RunsStmts .standard k ss ss' n') ↔
      (∀ s ∈ ss, Right (site f) k.env.scope inLoop s) ∧ AllReached ss := by
  induction ss generalizing k with
  | nil =>
    refine iff_of_true ⟨[], _, .nil⟩ ⟨by simp, ?_⟩
    intro front s next back heq
    simp at heq
  | cons s ss ih =>
    have hs : Decides s := h s (by simp)
    replace ih {k : Checker} (hk : k.In f inLoop) := ih (fun s hs => h s (by simp [hs])) hk
    rw [List.forall_mem_cons, allReached_cons]
    constructor
    · rintro ⟨_, n', hrun⟩
      cases hrun with
      | @cons _ _ s' _ ss' n₁ _ hrun hreached hrest =>
        -- a statement leaves its place as it was, up to the number of the next new expression
        obtain ⟨hright, hall⟩ := (ih (hk.next n₁)).1 ⟨ss', n', hrest⟩
        exact ⟨⟨(hs hk).1 ⟨s', n₁, hrun⟩, hright⟩, hreached, hall⟩
    · rintro ⟨⟨hright, hrights⟩, hreached, hall⟩
      obtain ⟨s', n₁, hrun⟩ := (hs hk).2 hright
      obtain ⟨ss', n', hrest⟩ := (ih (hk.next n₁)).2 ⟨hrights, hall⟩
      exact ⟨_, n', .cons hrun hreached hrest⟩

/-- A statement is right if it is checked without a report. -/
theorem RunsStmt.right {s s' : Stmt} {n' : Nat} (h : RunsStmt .standard k s s' n') (hs : s.Plain)
    (hdecides : ∀ t ∈ s.stmts, Decides t) (hk : k.In f inLoop) : Right (site f) k.env.scope inLoop s := by
  cases h with
  | @compound _ k₁ _ _ decls' _ stmts' _ hrun hstmts =>
    obtain ⟨hright, hreached⟩ :=
      (runsStmts_iff_of hdecides (hk.inner.behind hs.vars hrun)).1 ⟨stmts', n', hstmts⟩
    have hdecls := (declaresAll_iff hk.inner.scope hs.vars _).1 ⟨decls', k₁, hrun, rfl⟩
    exact .compound hdecls hright hreached
  | @ifThen _ _ _ cond' _ then' n₁ _ hcond hthen =>
    cases hs with
    | ifThen hc _ =>
      have hthen := (hdecides _ (by simp [Stmt.stmts]) (hk.next n₁)).1 ⟨then', n', hthen⟩
      exact .ifThen ((runsCondition_iff hk.scope hc _).1 ⟨cond', n₁, hcond⟩) hthen
  | @ifElse _ _ _ cond' _ then' _ else' n₁ n₂ _ hcond hthen helse =>
    cases hs with
    | ifElse hc _ _ =>
      have hthen := (hdecides _ (by simp [Stmt.stmts]) (hk.next n₁)).1 ⟨then', n₂, hthen⟩
      have helse := (hdecides _ (by simp [Stmt.stmts]) (hk.next n₂)).1 ⟨else', n', helse⟩
      exact .ifElse ((runsCondition_iff hk.scope hc _).1 ⟨cond', n₁, hcond⟩) hthen helse
  | @whileStmt _ _ _ cond' _ body' n₁ _ hcond hbody =>
    cases hs with
    | whileStmt hc _ =>
      have hbody := (hdecides _ (by simp [Stmt.stmts]) (hk.enter n₁)).1 ⟨body', n', hbody⟩
      exact .whileStmt ((runsCondition_iff hk.scope hc _).1 ⟨cond', n₁, hcond⟩) hbody
  | @forStmt _ _ _ init' _ _ update' cond' _ body' n₁ n₂ n₃ _ hinit hcond hupdate hbody =>
    cases hs with
    | forStmt hi hc hu _ =>
      have hbody := (hdecides _ (by simp [Stmt.stmts]) (hk.enter n₃)).1 ⟨body', n', hbody⟩
      exact .forStmt ((runsOption_iff hk.scope hi _).1 ⟨init', n₁, hinit⟩)
        ((runsForCondition_iff hk.scope hc _).1 ⟨cond', n₂, hcond⟩)
        ((runsOption_iff hk.scope hu _).1 ⟨update', n₃, hupdate⟩) hbody
  | breakStmt hloop =>
    -- the depth counts the loops, so that there is one here
    rw [hk.loop.1 hloop]
    exact .breakStmt
  | continueStmt hloop =>
    rw [hk.loop.1 hloop]
    exact .continueStmt
  | @returnStmt _ _ _ value' _ hrun =>
    cases hs with
    | returnStmt hv => exact .returnStmt ((runsReturn_iff hk hv).1 ⟨value', n', hrun⟩)
  | @exprStmt _ _ _ expr' _ hrun =>
    cases hs with
    | exprStmt he => exact .exprStmt ((runs_whole_iff hk.scope he _).1 ⟨expr', n', hrun⟩)
  | emptyStmt => exact .emptyStmt

/-- A statement that is right is checked without a report. -/
theorem runsStmt_of_right {s : Stmt} (h : Right (site f) k.env.scope inLoop s) (hs : s.Plain)
    (hdecides : ∀ t ∈ s.stmts, Decides t) (hk : k.In f inLoop) : ∃ s' n', RunsStmt .standard k s s' n' := by
  cases h with
  | compound hdeclares hright hreached =>
    obtain ⟨decls', k₁, hrun, rfl⟩ := (declaresAll_iff hk.inner.scope hs.vars _).2 hdeclares
    obtain ⟨stmts', n', hstmts⟩ :=
      (runsStmts_iff_of hdecides (hk.inner.behind hs.vars hrun)).2 ⟨hright, hreached⟩
    exact ⟨_, n', .compound hrun hstmts⟩
  | ifThen hcond hthen =>
    cases hs with
    | ifThen hc _ =>
      obtain ⟨cond', n₁, hcond⟩ := (runsCondition_iff hk.scope hc k.nextExpr).2 hcond
      obtain ⟨then', n', hthen⟩ := (hdecides _ (by simp [Stmt.stmts]) (hk.next n₁)).2 hthen
      exact ⟨_, n', .ifThen hcond hthen⟩
  | ifElse hcond hthen helse =>
    cases hs with
    | ifElse hc _ _ =>
      obtain ⟨cond', n₁, hcond⟩ := (runsCondition_iff hk.scope hc k.nextExpr).2 hcond
      obtain ⟨then', n₂, hthen⟩ := (hdecides _ (by simp [Stmt.stmts]) (hk.next n₁)).2 hthen
      obtain ⟨else', n', helse⟩ := (hdecides _ (by simp [Stmt.stmts]) (hk.next n₂)).2 helse
      exact ⟨_, n', .ifElse hcond hthen helse⟩
  | whileStmt hcond hbody =>
    cases hs with
    | whileStmt hc _ =>
      obtain ⟨cond', n₁, hcond⟩ := (runsCondition_iff hk.scope hc k.nextExpr).2 hcond
      obtain ⟨body', n', hbody⟩ := (hdecides _ (by simp [Stmt.stmts]) (hk.enter n₁)).2 hbody
      exact ⟨_, n', .whileStmt hcond hbody⟩
  | @forStmt _ _ info _ _ _ _ hinit hcond hupdate hbody =>
    cases hs with
    | forStmt hi hc hu _ =>
      obtain ⟨init', n₁, hinit⟩ := (runsOption_iff hk.scope hi k.nextExpr).2 hinit
      obtain ⟨cond', n₂, hcond⟩ := (@runsForCondition_iff _ info.span _ hk.scope hc n₁).2 hcond
      obtain ⟨update', n₃, hupdate⟩ := (runsOption_iff hk.scope hu n₂).2 hupdate
      obtain ⟨body', n', hbody⟩ := (hdecides _ (by simp [Stmt.stmts]) (hk.enter n₃)).2 hbody
      exact ⟨_, n', .forStmt hinit hcond hupdate hbody⟩
  | breakStmt => exact ⟨_, _, .breakStmt (hk.loop.2 rfl)⟩
  | continueStmt => exact ⟨_, _, .continueStmt (hk.loop.2 rfl)⟩
  | returnStmt hvalue =>
    cases hs with
    | returnStmt hv =>
      obtain ⟨value', n', hrun⟩ := (runsReturn_iff hk hv).2 hvalue
      exact ⟨_, n', .returnStmt hrun⟩
  | exprStmt hexpr =>
    cases hs with
    | exprStmt he =>
      obtain ⟨expr', n', hrun⟩ := (runs_whole_iff hk.scope he k.nextExpr).2 hexpr
      exact ⟨_, n', .exprStmt hrun⟩
  | emptyStmt => exact ⟨_, _, .emptyStmt⟩

theorem decides (s : Stmt) (hs : s.Plain) : Decides s := by
  induction s using Stmt.induct_stmts with
  | h s ih =>
    intro k f inLoop hk
    have hdecides : ∀ t ∈ s.stmts, Decides t := fun t ht => ih t ht (hs.stmts t ht)
    constructor
    · rintro ⟨s', n', hrun⟩
      exact hrun.right hs hdecides hk
    · exact fun hright => runsStmt_of_right hright hs hdecides hk

/-! ## Functions -/

theorem eq_of_declaresParams {ps : List Param} {env : Env} {Γ' : Scope} (h : DeclaresParams env.scope ps Γ') :
    Γ' = (bindParams env ps).scope := by
  induction ps generalizing env with
  | nil =>
    cases h
    rfl
  | cons p ps ih =>
    cases h with
    | cons _ _ hrest => exact @ih (env.insert p.ident.spelling p.binding) hrest

theorem missingReturn?_iff {ret : Ty} {hasReturn : Bool} :
    missingReturn? .standard ret hasReturn = none ↔ (ret ≠ .void → hasReturn = true) := by
  unfold missingReturn?
  cases ret <;> cases hasReturn <;> simp [Options.standard, Ty.isVoid]

/-- A place outside all functions, where every name is of a type in which nothing went wrong. -/
structure Checker.Outside (k : Checker) : Prop where
  scope : k.env.scope.Proper
  loop : k.loopDepth = 0

theorem signature_proper {f : Function} (hf : f.Plain) : (signature f.toPrototype).Proper := by
  refine ⟨hf.ty.proper, ?_⟩
  intro t ht
  obtain ⟨p, hp, rfl⟩ := List.mem_map.1 ht
  exact (hf.params p hp).proper

/-- The names of the parameters are in scope behind them, where the body of a function is. -/
theorem in_body {f : Function} (hk : k.Outside) (hf : f.Plain)
    (hparams : DeclaresParams (k.inside f).env.scope f.params (bindParams (k.inside f).env f.params).scope) :
    Checker.In { k.inside f with env := bindParams (k.inside f).env f.params } f.toPrototype false := by
  have hloop : k.loopDepth = 0 := hk.loop
  refine ⟨rfl, hf.ty.proper, ?_, by simp [Checker.inside, hloop]⟩
  exact hparams.proper (hk.scope.insert (signature_proper hf)).openScope fun p hp => (hf.params p hp).proper

theorem runsFunction_iff {f : Function} (hk : k.Outside) (hf : f.Plain) :
    (∃ f' n', RunsFunction .standard k f f' n') ↔
      DeclaresTop k.env.scope (.func f) (k.env.scope.insert f.ident.spelling (signature f.toPrototype)) := by
  have hdecls := hf.parts
  have hin := @in_body k f hk hf
  have hstmts (k₁ : Checker) (hk₁ : k₁.In f.toPrototype false) :=
    runsStmts_iff_of (fun s hs => decides s (hdecls.2 s hs)) hk₁
  constructor
  · rintro ⟨f', n', hnew, hparams, ⟨decls', k₁, stmts', hrun, hbody, -⟩, hreturns⟩
    have hall := (declaresAll_iff (hin hparams).scope hdecls.1 _).1 ⟨decls', k₁, hrun, rfl⟩
    obtain ⟨hright, hreached⟩ := (hstmts k₁ ((hin hparams).behind hdecls.1 hrun)).1 ⟨stmts', n', hbody⟩
    refine .func (retrieveOneLevel_scope.2 hnew) hparams hall hright hreached ?_
    rw [← Stmt.alwaysReturns_iff]
    exact missingReturn?_iff.1 hreturns
  · intro h
    cases h with
    | @func Γ₁ _ _ hnew hparams hall hright hreached hreturns =>
      obtain rfl := @eq_of_declaresParams _ (k.inside f).env Γ₁ hparams
      obtain ⟨decls', k₁, hrun, rfl⟩ := (declaresAll_iff (hin hparams).scope hdecls.1 _).2 hall
      obtain ⟨stmts', n', hbody⟩ := (hstmts k₁ ((hin hparams).behind hdecls.1 hrun)).2 ⟨hright, hreached⟩
      rw [← Stmt.alwaysReturns_iff] at hreturns
      exact ⟨_, n', retrieveOneLevel_scope.1 hnew, hparams, ⟨decls', k₁, stmts', hrun, hbody, rfl⟩,
        missingReturn?_iff.2 hreturns⟩

/-! ## Programs -/

theorem declaresTop_iff {d : TopDecl} (hk : k.Outside) (hd : d.Plain) (Γ' : Scope) :
    (∃ d' k', RunsTop .standard k d d' k' ∧ k'.env.scope = Γ') ↔ DeclaresTop k.env.scope d Γ' := by
  cases hd with
  | @func f hf =>
    have hrun := runsFunction_iff hk hf
    constructor
    · rintro ⟨_, _, h, rfl⟩
      cases h with
      | @func _ f' n' h => exact hrun.1 ⟨f', n', h⟩
    · intro h
      obtain rfl : Γ' = k.env.scope.insert f.ident.spelling (signature f.toPrototype) := by
        cases h with
        | func => rfl
      obtain ⟨f', n', h⟩ := hrun.2 h
      exact ⟨_, _, .func h, rfl⟩
  | @var d hd =>
    constructor
    · rintro ⟨_, k', h, rfl⟩
      cases h with
      | @var _ d' _ h => exact .var ((declares_iff hk.scope hd _).1 ⟨d', k', h, rfl⟩)
    · intro h
      cases h with
      | var hdeclares =>
        obtain ⟨d', k', hrun, rfl⟩ := (declares_iff hk.scope hd _).2 hdeclares
        exact ⟨_, k', .var hrun, rfl⟩

theorem outside_next {options : Options} {d d' : TopDecl} {k' : Checker} (hk : k.Outside) (hd : d.Plain)
    (h : RunsTop options k d d' k') : k'.Outside := by
  cases h with
  | func =>
    cases hd with
    | func hf => exact ⟨hk.scope.insert (signature_proper hf), hk.loop⟩
  | @var d d' _ hrun =>
    cases hd with
    | var hd =>
      have hdeclares := (declares_iff hk.scope hd _).1 ⟨d', k', hrun, rfl⟩
      obtain ⟨-, -, n', -, rfl⟩ := runs_checkVarDecl.1 hrun
      exact ⟨hdeclares.proper hk.scope hd, hk.loop⟩

theorem declaresTops_iff {ds : List TopDecl} (hk : k.Outside) (hds : ∀ d ∈ ds, d.Plain) (Γ' : Scope) :
    (∃ ds' k', RunsTops .standard k ds ds' k' ∧ k'.env.scope = Γ') ↔ DeclaresTops k.env.scope ds Γ' := by
  induction ds generalizing k with
  | nil =>
    constructor
    · rintro ⟨_, _, ⟨⟩, rfl⟩
      exact .nil
    · rintro ⟨⟩
      exact ⟨_, _, .nil, rfl⟩
  | cons d ds ih =>
    have hd := hds d (by simp)
    replace ih {k : Checker} (hk : k.Outside) := ih hk fun d hd => hds d (by simp [hd])
    constructor
    · rintro ⟨_, k', h, rfl⟩
      cases h with
      | @cons _ k₁ _ _ d' _ ds' hrun hrest =>
        exact .cons ((declaresTop_iff hk hd _).1 ⟨d', k₁, hrun, rfl⟩)
          ((ih (outside_next hk hd hrun)).1 ⟨ds', k', hrest, rfl⟩)
    · intro h
      cases h with
      | cons hdeclares hrest =>
        obtain ⟨d', k₁, hrun, rfl⟩ := (declaresTop_iff hk hd _).2 hdeclares
        obtain ⟨ds', k', hrun', rfl⟩ := (ih (outside_next hk hd hrun)).2 hrest
        exact ⟨_, k', .cons hrun hrun', rfl⟩

theorem types_params (first : Nat) (types : List Ty) : (Library.params first types).map Param.ty = types :=
  List.ext_getElem (by simp [Library.params]) (by simp [Library.params])

/-- The numbers of the predeclared functions are no part of what is known of them. -/
theorem scope_bindAll (first : Nat) (es : List Library.Entry) (env : Env) :
    (Library.bindAll env (Library.number first es)).scope =
      es.foldl (fun Γ e => Γ.insert e.name (.func e.ret e.params)) env.scope := by
  induction es generalizing first env with
  | nil => rfl
  | cons e es ih =>
    change (Library.bindAll (env.insert e.name ⟨_, .func e.ret _⟩) _).scope = _
    rw [ih, types_params]
    rfl

theorem predeclared_proper : Scope.Proper predeclared := by
  have hentries : ∀ e ∈ Library.entries, e.ret.Proper ∧ ∀ p ∈ e.params, p.Proper := by
    simp [Library.entries, Ty.Proper]
  have hempty : Scope.Proper .empty := by
    intro name s hs
    cases hs
  have hall (es : List Library.Entry) (hes : ∀ e ∈ es, e.ret.Proper ∧ ∀ p ∈ e.params, p.Proper) {Γ : Scope}
      (hΓ : Γ.Proper) :
      Scope.Proper (es.foldl (fun Γ e => Γ.insert e.name (.func e.ret e.params)) Γ) := by
    induction es generalizing Γ with
    | nil => exact hΓ
    | cons e es ih => exact ih (fun e he => hes e (by simp [he])) (hΓ.insert (hes e (by simp)))
  exact hall _ hentries hempty

theorem scope_initial (p : Program) : (Checker.initial p).env.scope = predeclared := scope_bindAll _ _ _

theorem outside_initial (p : Program) : (Checker.initial p).Outside := by
  refine ⟨?_, rfl⟩
  rw [scope_initial]
  exact predeclared_proper

/-- The check reports nothing exactly if the program is right. -/
theorem check_iff {p : Program} (hp : p.Plain) : (check .standard p).2 = [] ↔ Correct p := by
  have htops := declaresTops_iff (outside_initial p) hp.decls
  rw [check_eq_nil_iff, Correct, ← scope_initial p]
  constructor
  · rintro ⟨ds', k', hrun, hmain⟩
    exact ⟨_, (htops _).1 ⟨ds', k', hrun, rfl⟩, hmain⟩
  · rintro ⟨Γ, hdeclares, hmain⟩
    obtain ⟨ds', k', hrun, rfl⟩ := (htops _).2 hdeclares
    exact ⟨ds', k', hrun, hmain⟩

end Typing

/-- A text is compiled exactly if it is parsed and checked without a report. -/
theorem compile_program_iff {options : Typing.Options} {source : String} {p : Program} :
    (compile options source).program = some p ↔ ∃ parsed, (parse source).result = .ok parsed ∧
      (parse source).errors = [] ∧ (check options parsed).2 = [] ∧ p = (check options parsed).1 := by
  unfold compile
  rcases parse source with ⟨e | parsed, errors⟩
  · simp
  · simp only [Compilation.ofProgram, List.isEmpty_iff, List.append_eq_nil_iff, Except.ok.injEq]
    constructor
    · intro hp
      split_ifs at hp with hnil
      cases hp
      exact ⟨parsed, rfl, hnil.1, hnil.2, rfl⟩
    · rintro ⟨_, rfl, hparse, hcheck, rfl⟩
      rw [if_pos ⟨hparse, hcheck⟩]

/-- What the check accepts of the programs that were parsed are the programs that are right. -/
theorem accepts_iff_correct {source : String} {p : Program} (h : (parse source).result = .ok p) :
    (check .standard p).2 = [] ↔ Correct p :=
  Typing.check_iff (parse_built h).1

/-- A program that is right: what its variable is given is converted. -/
theorem accepts_iff_correct_float :
    ∃ p, (parse "int main(){float x = 1; return 0;}").result = .ok p ∧ (check .standard p).2 = [] ∧ Correct p := by
  have hcompiled : (compile .standard "int main(){float x = 1; return 0;}").program.isSome = true := by
    decide +kernel
  obtain ⟨_, hp⟩ := Option.isSome_iff_exists.1 hcompiled
  obtain ⟨p, hparsed, -, haccepted, -⟩ := compile_program_iff.1 hp
  exact ⟨p, hparsed, haccepted, (accepts_iff_correct hparsed).1 haccepted⟩

end VCLang
