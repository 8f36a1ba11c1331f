/-
What a check of functions and programs that reports nothing does.
-/
import VCLang.Proofs.Typing.Flow
namespace VCLang.Typing

open Static Check

variable {options : Options} {k k' : Checker}

/-! ## Parameters -/

/-- The names of parameters bound one after another. -/
def bindParams (env : Env) (ps : List Param) : Env :=
  ps.foldl (fun env p => env.insert p.ident.spelling p.binding) env

theorem bindParams_outer (env : Env) (ps : List Param) : (bindParams env ps).outer = env.outer := by
  induction ps generalizing env with
  | nil => rfl
  | cons p ps ih => exact ih _

theorem runs_checkParams {ps : List Param} {u : Unit} :
    (checkParams ps).Runs k u k' ↔
      DeclaresParams k.env.scope ps (bindParams k.env ps).scope ∧ k' = { k with env := bindParams k.env ps } := by
  induction ps generalizing k with
  | nil =>
    rw [checkParams, runs_pure]
    constructor
    · rintro ⟨-, rfl⟩
      exact ⟨.nil, rfl⟩
    · rintro ⟨-, rfl⟩
      exact ⟨rfl, rfl⟩
  | cons p ps ih =>
    simp only [checkParams, checkParam, runs_bind, runs_declare, runs_reportOption, voidFault?_iff, ih]
    constructor
    · rintro ⟨_, _, ⟨_, _, ⟨hnew, rfl⟩, hvoid, rfl⟩, hrest, rfl⟩
      exact ⟨.cons (retrieveOneLevel_scope.2 hnew) hvoid hrest, rfl⟩
    · rintro ⟨h, rfl⟩
      cases h with
      | cons hnew hvoid hrest =>
        exact ⟨(), _, ⟨(), _, ⟨retrieveOneLevel_scope.1 hnew, rfl⟩, hvoid, rfl⟩, hrest, rfl⟩

/-! ## Functions -/

/-- The place that the parameters of a function are declared at. -/
def Checker.inside (k : Checker) (f : Function) : Checker :=
  { k with env := (k.env.insert f.ident.spelling f.binding).openScope, function := some f.toPrototype }

/-- A function is checked. -/
structure RunsFunction (options : Options) (k : Checker) (f f' : Function) (n' : Nat) : Prop where
  fresh : k.env.retrieveOneLevel f.ident.spelling = none
  params : DeclaresParams (k.inside f).env.scope f.params (bindParams (k.inside f).env f.params).scope
  body : ∃ decls' k₁ stmts', (checkVarDecls f.body.decls).Runs
      { k.inside f with env := bindParams (k.inside f).env f.params } decls' k₁ ∧
    RunsStmts options k₁ f.body.stmts stmts' n' ∧
    f' = { f with body := ⟨f.body.info, decls', stmts'⟩, hasReturn := f.body.toStmt.alwaysReturns }
  returns : missingReturn? options f.ty f.body.toStmt.alwaysReturns = none

/-- The checked body of a function returns where the body does. -/
theorem alwaysReturns_body {b : Block} {decls' : List VarDecl} {stmts' : List Stmt} {n' : Nat}
    (h : RunsStmts options k b.stmts stmts' n') :
    (Block.mk b.info decls' stmts').toStmt.alwaysReturns = b.toStmt.alwaysReturns :=
  (flow_checkStmts_of (fun _ _ => flow_checkStmt) h).2

theorem runs_checkFunction {f f' : Function} :
    (checkFunction options f).Runs k f' k' ↔ ∃ n', RunsFunction options k f f' n' ∧
      k' = { k with env := k.env.insert f.ident.spelling f.binding, nextExpr := n' } := by
  unfold checkFunction checkBody
  simp only [runs_bind, runs_declare, runs_openScope, runs_get, runs_modify, runs_checkParams, runs_checkStmts,
    runs_reportOption, runs_closeScope, runs_pure]
  -- the scope that is closed at the end is the one that was opened for the parameters
  have hclose {decls' : List VarDecl} {k₁ : Checker} (hdecls : (checkVarDecls f.body.decls).Runs
      { k.inside f with env := bindParams (k.inside f).env f.params } decls' k₁) :
      k₁.env.closeScope = k.env.insert f.ident.spelling f.binding ∧ k₁.loopDepth = k.loopDepth := by
    obtain ⟨houter, hdepth, -⟩ := frame_checkVarDecls hdecls
    exact ⟨closeScope_of_outer (houter.trans (bindParams_outer _ _)), hdepth⟩
  constructor
  · rintro ⟨_, _, ⟨hnew, rfl⟩, _, _, rfl, _, _, ⟨rfl, rfl⟩, _, _, rfl, _, _, ⟨hparams, rfl⟩, h⟩
    obtain ⟨_, _, ⟨decls', k₁, hdecls, stmts', _, ⟨n', hstmts, rfl⟩, rfl, rfl⟩, h⟩ := h
    obtain ⟨_, _, ⟨hreturns, rfl⟩, _, _, rfl, _, _, rfl, rfl, rfl⟩ := h
    obtain ⟨hclosed, hdepth⟩ := hclose hdecls
    have hflow := @alwaysReturns_body _ _ _ decls' _ _ hstmts
    refine ⟨n', ⟨hnew, hparams, ⟨decls', k₁, stmts', hdecls, hstmts, ?_⟩, ?_⟩, ?_⟩
    · rw [← hflow]
    · rwa [← hflow]
    · rw [hclosed, hdepth]
  · rintro ⟨n', ⟨hnew, hparams, ⟨decls', k₁, stmts', hdecls, hstmts, rfl⟩, hreturns⟩, rfl⟩
    obtain ⟨hclosed, hdepth⟩ := hclose hdecls
    have hflow := @alwaysReturns_body _ _ _ decls' _ _ hstmts
    refine ⟨(), _, ⟨hnew, rfl⟩, (), _, rfl, _, _, ⟨rfl, rfl⟩, (), _, rfl, (), _, ⟨hparams, rfl⟩, ?_⟩
    refine ⟨_, _, ⟨decls', k₁, hdecls, stmts', _, ⟨n', hstmts, rfl⟩, rfl, rfl⟩, ?_⟩
    refine ⟨(), _, ⟨by rwa [← hflow] at hreturns, rfl⟩, (), _, rfl, (), _, rfl, ?_, ?_⟩
    · rw [← hflow]
    · rw [hclosed, hdepth]

/-! ## Programs -/

/-- A declaration outside all functions is checked; the second place is that of what follows. -/
inductive RunsTop (options : Options) (k : Checker) : TopDecl → TopDecl → Checker → Prop
  | func {f f' : Function} {n' : Nat} : RunsFunction options k f f' n' → RunsTop options k (.func f) (.func f')
      { k with env := k.env.insert f.ident.spelling f.binding, nextExpr := n' }
  | var {d d' : VarDecl} {k' : Checker} : (checkVarDecl d).Runs k d' k' → RunsTop options k (.var d) (.var d') k'

theorem runs_checkTopDecl {d d' : TopDecl} : (checkTopDecl options d).Runs k d' k' ↔ RunsTop options k d d' k' := by
  cases d with
  | func f =>
    simp only [checkTopDecl, runs_map, runs_checkFunction]
    constructor
    · rintro ⟨f', ⟨n', hrun, rfl⟩, rfl⟩
      exact .func hrun
    · intro h
      cases h with
      | func hrun => exact ⟨_, ⟨_, hrun, rfl⟩, rfl⟩
  | var d =>
    simp only [checkTopDecl, runs_map]
    constructor
    · rintro ⟨d', hrun, rfl⟩
      exact .var hrun
    · intro h
      cases h with
      | var hrun => exact ⟨_, hrun, rfl⟩

/-- Declarations outside all functions are checked one after another. -/
inductive RunsTops (options : Options) : Checker → List TopDecl → List TopDecl → Checker → Prop
  | nil {k : Checker} : RunsTops options k [] [] k
  | cons {k k₁ k' : Checker} {d d' : TopDecl} {ds ds' : List TopDecl} : RunsTop options k d d' k₁ →
    RunsTops options k₁ ds ds' k' → RunsTops options k (d :: ds) (d' :: ds') k'

theorem runs_checkTopDecls {ds ds' : List TopDecl} :
    (checkTopDecls options ds).Runs k ds' k' ↔ RunsTops options k ds ds' k' := by
  induction ds generalizing k k' ds' with
  | nil =>
    rw [checkTopDecls, runs_pure]
    constructor
    · rintro ⟨rfl, rfl⟩
      exact .nil
    · rintro ⟨⟩
      exact ⟨rfl, rfl⟩
  | cons d ds ih =>
    simp only [checkTopDecls, runs_bind, runs_checkTopDecl, ih, runs_pure]
    constructor
    · rintro ⟨d', k₁, hd, ds', _, hds, rfl, rfl⟩
      exact .cons hd hds
    · intro h
      cases h with
      | cons hd hds => exact ⟨_, _, hd, _, _, hds, rfl, rfl⟩

theorem mainFault?_iff {env : Env} :
    mainFault? env = none ↔ ∃ params, env.scope.retrieve "main" = some (.func .int params) := by
  unfold mainFault? Env.scope
  rw [Scopes.retrieve_map]
  rcases (env.retrieve "main").map Binding.signature with _ | t | ⟨ret, params⟩
  · simp
  · simp
  · cases ret <;> simp [Ty.isInt]

theorem runs_checkDecls {p : Program} {ds' : List TopDecl} :
    (checkDecls options p).Runs k ds' k' ↔ RunsTops options k p.decls ds' k' ∧
      ∃ params, k'.env.scope.retrieve "main" = some (.func .int params) := by
  unfold checkDecls
  simp only [runs_bind, runs_checkTopDecls, runs_get, runs_reportOption, mainFault?_iff, runs_pure]
  constructor
  · rintro ⟨_, _, hds, _, _, ⟨rfl, rfl⟩, _, _, ⟨hmain, rfl⟩, rfl, rfl⟩
    exact ⟨hds, hmain⟩
  · rintro ⟨hds, hmain⟩
    exact ⟨ds', k', hds, k', k', ⟨rfl, rfl⟩, (), k', ⟨hmain, rfl⟩, rfl, rfl⟩

/-- A program is accepted exactly if the check of its declarations runs and finds `main`. -/
theorem check_eq_nil_iff {p : Program} :
    (check options p).2 = [] ↔ ∃ ds' k', RunsTops options (.initial p) p.decls ds' k' ∧
      ∃ params, k'.env.scope.retrieve "main" = some (.func .int params) := by
  change (checkDecls options p (.initial p)).errors = [] ↔ _
  simp only [errors_eq_nil_iff, runs_checkDecls]

/-- What an accepted program is afterwards. -/
theorem check_accepted {p : Program} (h : (check options p).2 = []) :
    ∃ ds' k', RunsTops options (.initial p) p.decls ds' k' ∧
      (∃ params, k'.env.scope.retrieve "main" = some (.func .int params)) ∧
      (check options p).1 = ⟨ds', p.span, p.predeclared ++ Library.prototypesFor p⟩ := by
  obtain ⟨ds', k', hrun, hmain⟩ := check_eq_nil_iff.1 h
  have ho : checkDecls options p (.initial p) = ⟨ds', k', []⟩ := runs_checkDecls.2 ⟨hrun, hmain⟩
  exact ⟨ds', k', hrun, hmain, by rw [check, ho]; rfl⟩

end VCLang.Typing
