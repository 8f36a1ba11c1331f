/-
What a check of statements that reports nothing does, said once: a relation with one constructor for each
form of statement. What a statement needs of its place is read off it, and that the place is left as it was.
-/
import VCLang.Proofs.Typing.Declaration
namespace VCLang.Typing

open Static Check

variable {options : Options} {k k' : Checker}

/-! ## Parts of statements -/

/-- A condition is checked. -/
def RunsCondition (env : Env) (n : Nat) (cond cond' : Expr) (n' : Nat) : Prop :=
  (checkExpr env false cond).Runs n cond' n' ∧ (cond'.type.isBoolean || cond'.type.isError) = true

@[simp] theorem runs_checkCondition {fault : Ty → Fault} {cond cond' : Expr} :
    (checkCondition fault cond).Runs k cond' k' ↔ ∃ n', RunsCondition k.env k.nextExpr cond cond' n' ∧
      k' = { k with nextExpr := n' } := by
  have hfault (t : Ty) : conditionFault? fault t = none ↔ (t.isBoolean || t.isError) = true := by
    unfold conditionFault?
    split_ifs with h <;> simp [h]
  unfold checkCondition
  simp only [runs_bind, runs_onExpr, runs_reportOption, runs_pure, hfault]
  constructor
  · rintro ⟨_, _, ⟨n', hrun, rfl⟩, _, _, ⟨hbool, rfl⟩, rfl, rfl⟩
    exact ⟨n', ⟨hrun, hbool⟩, rfl⟩
  · rintro ⟨n', ⟨hrun, hbool⟩, rfl⟩
    exact ⟨_, _, ⟨n', hrun, rfl⟩, (), _, ⟨hbool, rfl⟩, rfl, rfl⟩

/-- The condition of a `for` loop is checked, or `true` is put in its place. -/
inductive RunsForCondition (env : Env) (n : Nat) (span : Span) : Option Expr → Expr → Nat → Prop
  | omitted : RunsForCondition env n span none (.literal ⟨⟨n⟩, span, some .boolean⟩ (.boolean "true")) (n + 1)
  | given {cond cond' : Expr} {n' : Nat} : RunsCondition env n cond cond' n' →
    RunsForCondition env n span (some cond) cond' n'

theorem runs_forCondition {span : Span} {fault : Ty → Fault} {cond : Option Expr} {cond' : Expr} :
    (fillCondition span cond >>= checkCondition fault).Runs k cond' k' ↔
      ∃ n', RunsForCondition k.env k.nextExpr span cond cond' n' ∧ k' = { k with nextExpr := n' } := by
  rw [runs_bind]
  cases cond with
  | none =>
    simp only [fillCondition, runs_bind, runs_onExpr, runs_freshExpr, runs_pure, runs_checkCondition]
    constructor
    · rintro ⟨_, _, ⟨_, _, ⟨_, ⟨rfl, rfl⟩, rfl⟩, rfl, rfl⟩, n', ⟨hrun, -⟩, rfl⟩
      rw [checkExpr, runs_pure] at hrun
      obtain ⟨rfl, rfl⟩ := hrun
      exact ⟨_, .omitted, rfl⟩
    · rintro ⟨_, ⟨⟩, rfl⟩
      refine ⟨_, _, ⟨_, _, ⟨_, ⟨rfl, rfl⟩, rfl⟩, rfl, rfl⟩, _, ⟨?_, rfl⟩, rfl⟩
      rw [checkExpr, runs_pure]
      exact ⟨rfl, rfl⟩
  | some cond =>
    simp only [fillCondition, runs_pure, runs_checkCondition]
    constructor
    · rintro ⟨_, _, ⟨rfl, rfl⟩, n', hrun, rfl⟩
      exact ⟨n', .given hrun, rfl⟩
    · rintro ⟨n', h, rfl⟩
      cases h with
      | given hrun => exact ⟨cond, k, ⟨rfl, rfl⟩, n', hrun, rfl⟩

/-- What is returned is checked against the function that the place is in. -/
inductive RunsReturn (k : Checker) : Option Expr → Option Expr → Nat → Prop
  | outside {o o' : Option Expr} {n' : Nat} : k.function = none → RunsOption k.env k.nextExpr o o' n' →
    RunsReturn k o o' n'
  | main {f : Prototype} {o o' : Option Expr} {n' : Nat} : k.function = some f → f.ident.spelling = "main" →
    RunsOption k.env k.nextExpr o o' n' → mainReturnFault? (valueType o') = none → RunsReturn k o o' n'
  | nothing {f : Prototype} : k.function = some f → f.ident.spelling ≠ "main" →
    f.ty.assignable .void = true → RunsReturn k none none k.nextExpr
  | value {f : Prototype} {e e' : Expr} {n' : Nat} : k.function = some f → f.ident.spelling ≠ "main" →
    RunsStore k.env f.ty k.nextExpr e e' n' → RunsReturn k (some e) (some e') n'

/-- A value that may be absent is stored where a function returns it. -/
theorem runs_returned {env : Env} {target : Ty} {span : Span} {o o' : Option Expr} {n n' : Nat} :
    (∃ checked n₁, RunsOption env n o checked n₁ ∧
      (settleOption (storeRuling .incompatibleReturn target (valueType checked)) span checked).Runs n₁ o' n') ↔
      (o = none ∧ o' = none ∧ n' = n ∧ target.assignable .void = true) ∨
        ∃ e e', o = some e ∧ o' = some e' ∧ RunsStore env target n e e' n' := by
  have hnone : (storeRuling .incompatibleReturn target .void).fault? = none ↔
      target.assignable .void = true := by
    unfold storeRuling
    split_ifs with h <;> simp [h, Ruling.fault?]
  constructor
  · rintro ⟨_, n₁, h, hsettle⟩
    cases h with
    | none =>
      simp only [settleOption, valueType, runs_bind, runs_reportOption, runs_pure, hnone] at hsettle
      obtain ⟨_, _, ⟨hassign, rfl⟩, rfl, rfl⟩ := hsettle
      exact .inl ⟨rfl, rfl, rfl, hassign⟩
    | @some e checked _ hrun =>
      simp only [settleOption, valueType, runs_map, runs_settle_store] at hsettle
      obtain ⟨e', ⟨hassign, hw⟩, rfl⟩ := hsettle
      exact .inr ⟨e, e', rfl, rfl, checked, n₁, hrun, hassign, hw⟩
  · rintro (⟨rfl, rfl, rfl, hassign⟩ | ⟨e, e', rfl, rfl, checked, n₁, hrun, hassign, hw⟩)
    · refine ⟨none, n', .none, ?_⟩
      simp only [settleOption, valueType, runs_bind, runs_reportOption, runs_pure, hnone]
      exact ⟨(), n', ⟨hassign, rfl⟩, trivial, rfl⟩
    · refine ⟨some checked, n₁, .some hrun, ?_⟩
      simp only [settleOption, valueType, runs_map, runs_settle_store]
      exact ⟨e', ⟨hassign, hw⟩, rfl⟩

theorem runs_checkReturn {span : Span} {o o' : Option Expr} :
    (checkReturn span o).Runs k o' k' ↔ ∃ n', RunsReturn k o o' n' ∧ k' = { k with nextExpr := n' } := by
  unfold checkReturn
  rw [runs_bind]
  simp only [runs_get_bind, runs_checkOption]
  obtain ⟨env, depth, _ | f, n⟩ := k
  · -- outside all functions nothing is asked of the value
    constructor
    · rintro ⟨_, _, ⟨n', hrun, rfl⟩, h⟩
      obtain ⟨rfl, rfl⟩ := runs_pure.1 h
      exact ⟨n', .outside rfl hrun, rfl⟩
    · rintro ⟨n', h, rfl⟩
      cases h with
      | outside _ hrun => exact ⟨o', _, ⟨n', hrun, rfl⟩, runs_pure.2 ⟨rfl, rfl⟩⟩
      | _ => contradiction
  by_cases hmain : f.ident.spelling = "main"
  · -- `main` does not convert what it returns
    constructor
    · rintro ⟨_, _, ⟨n', hrun, rfl⟩, h⟩
      simp only [hmain, if_true, runs_bind, runs_reportOption, runs_pure] at h
      obtain ⟨_, _, ⟨hfault, rfl⟩, rfl, rfl⟩ := h
      exact ⟨n', .main rfl hmain hrun hfault, rfl⟩
    · rintro ⟨n', h, rfl⟩
      cases h with
      | main _ _ hrun hfault =>
        refine ⟨o', _, ⟨n', hrun, rfl⟩, ?_⟩
        simp only [hmain, if_true, runs_bind, runs_reportOption, runs_pure]
        exact ⟨(), _, ⟨hfault, rfl⟩, trivial, rfl⟩
      | outside hf _ => cases hf
      | nothing hf hother _ =>
        cases hf
        exact absurd hmain hother
      | value hf hother _ =>
        cases hf
        exact absurd hmain hother
  · constructor
    · rintro ⟨checked, _, ⟨n₁, hrun, rfl⟩, h⟩
      simp only [if_neg hmain, runs_onExpr] at h
      obtain ⟨n', hsettle, rfl⟩ := h
      refine ⟨n', ?_, rfl⟩
      rcases runs_returned.1 ⟨checked, n₁, hrun, hsettle⟩ with
        ⟨rfl, rfl, rfl, hassign⟩ | ⟨e, e', rfl, rfl, hstore⟩
      · exact .nothing rfl hmain hassign
      · exact .value rfl hmain hstore
    · rintro ⟨n', h, rfl⟩
      obtain ⟨checked, n₁, hrun, hsettle⟩ : ∃ checked n₁, RunsOption env n o checked n₁ ∧
          (settleOption (storeRuling .incompatibleReturn f.ty (valueType checked)) span checked).Runs n₁ o' n' := by
        cases h with
        | nothing hf _ hassign =>
          cases hf
          exact runs_returned.2 (.inl ⟨rfl, rfl, rfl, hassign⟩)
        | value hf _ hstore =>
          cases hf
          exact runs_returned.2 (.inr ⟨_, _, rfl, rfl, hstore⟩)
        | outside hf _ => cases hf
        | main hf hmain' _ _ =>
          cases hf
          exact absurd hmain' hmain
      refine ⟨checked, _, ⟨n₁, hrun, rfl⟩, ?_⟩
      simp only [if_neg hmain, runs_onExpr]
      exact ⟨n', hsettle, rfl⟩

/-- Nothing stands right behind a `return`, where that is reported. -/
def Reached (options : Options) (s : Stmt) (ss : List Stmt) : Prop :=
  options.reportUnreachable = true → s.isReturn = true → ss = []

@[simp] theorem runs_reportUnreachable {s : Stmt} {ss : List Stmt} {u : Unit} :
    (reportUnreachable options s ss).Runs k u k' ↔ Reached options s ss ∧ k' = k := by
  cases ss with
  | nil => simp [reportUnreachable, Reached]
  | cons next ss =>
    rw [reportUnreachable, runs_ite_report, Reached]
    simp only [Bool.and_eq_true, not_and, reduceCtorEq, imp_false, and_congr_left_iff]
    intro _
    constructor
    · intro h hoption hreturn
      exact h hreturn hoption
    · intro h hreturn hoption
      exact h hoption hreturn

@[simp] theorem runs_requireLoop {f : Fault} {span : Span} {u : Unit} :
    (requireLoop f span).Runs k u k' ↔ k.loopDepth ≠ 0 ∧ k' = k := by
  unfold requireLoop
  rw [runs_get_bind, runs_ite_report]

/-! ## Statements -/

mutual

/-- A statement is checked at a place; the number is that of the next new expression behind it. -/
inductive RunsStmt (options : Options) : Checker → Stmt → Stmt → Nat → Prop
  | compound {k k₁ : Checker} {info : StmtInfo} {decls decls' : List VarDecl} {stmts stmts' : List Stmt}
    {n' : Nat} : (checkVarDecls decls).Runs { k with env := k.env.openScope } decls' k₁ →
    RunsStmts options k₁ stmts stmts' n' →
    RunsStmt options k (.compound info decls stmts) (.compound info decls' stmts') n'
  | ifThen {k : Checker} {info : StmtInfo} {cond cond' : Expr} {thenBranch then' : Stmt} {n₁ n' : Nat} :
    RunsCondition k.env k.nextExpr cond cond' n₁ →
    RunsStmt options { k with nextExpr := n₁ } thenBranch then' n' →
    RunsStmt options k (.ifThen info cond thenBranch) (.ifThen info cond' then') n'
  | ifElse {k : Checker} {info : StmtInfo} {cond cond' : Expr} {thenBranch then' elseBranch else' : Stmt}
    {n₁ n₂ n' : Nat} : RunsCondition k.env k.nextExpr cond cond' n₁ →
    RunsStmt options { k with nextExpr := n₁ } thenBranch then' n₂ →
    RunsStmt options { k with nextExpr := n₂ } elseBranch else' n' →
    RunsStmt options k (.ifElse info cond thenBranch elseBranch) (.ifElse info cond' then' else') n'
  | whileStmt {k : Checker} {info : StmtInfo} {cond cond' : Expr} {body body' : Stmt} {n₁ n' : Nat} :
    RunsCondition k.env k.nextExpr cond cond' n₁ →
    RunsStmt options { k with loopDepth := k.loopDepth + 1, nextExpr := n₁ } body body' n' →
    RunsStmt options k (.whileStmt info cond body) (.whileStmt info cond' body') n'
  | forStmt {k : Checker} {info : StmtInfo} {init init' cond update update' : Option Expr} {cond' : Expr}
    {body body' : Stmt} {n₁ n₂ n₃ n' : Nat} : RunsOption k.env k.nextExpr init init' n₁ →
    RunsForCondition k.env n₁ info.span cond cond' n₂ → RunsOption k.env n₂ update update' n₃ →
    RunsStmt options { k with loopDepth := k.loopDepth + 1, nextExpr := n₃ } body body' n' →
    RunsStmt options k (.forStmt info init cond update body) (.forStmt info init' (some cond') update' body') n'
  | breakStmt {k : Checker} {info : StmtInfo} : k.loopDepth ≠ 0 →
    RunsStmt options k (.breakStmt info) (.breakStmt info) k.nextExpr
  | continueStmt {k : Checker} {info : StmtInfo} : k.loopDepth ≠ 0 →
    RunsStmt options k (.continueStmt info) (.continueStmt info) k.nextExpr
  | returnStmt {k : Checker} {info : StmtInfo} {value value' : Option Expr} {n' : Nat} :
    RunsReturn k value value' n' → RunsStmt options k (.returnStmt info value) (.returnStmt info value') n'
  | exprStmt {k : Checker} {info : StmtInfo} {expr expr' : Expr} {n' : Nat} :
    (checkExpr k.env true expr).Runs k.nextExpr expr' n' →
    RunsStmt options k (.exprStmt info expr) (.exprStmt info expr') n'
  | emptyStmt {k : Checker} {info : StmtInfo} :
    RunsStmt options k (.emptyStmt info) (.emptyStmt info) k.nextExpr

/-- Statements are checked one after another. -/
inductive RunsStmts (options : Options) : Checker → List Stmt → List Stmt → Nat → Prop
  | nil {k : Checker} : RunsStmts options k [] [] k.nextExpr
  | cons {k : Checker} {s s' : Stmt} {ss ss' : List Stmt} {n₁ n' : Nat} : RunsStmt options k s s' n₁ →
    Reached options s ss → RunsStmts options { k with nextExpr := n₁ } ss ss' n' →
    RunsStmts options k (s :: ss) (s' :: ss') n'

end

/-- The check of a statement runs as the relation says. -/
def RunsAs (options : Options) (s : Stmt) : Prop :=
  ∀ k s' k', (checkStmt options s).Runs k s' k' ↔ ∃ n', RunsStmt options k s s' n' ∧ k' = { k with nextExpr := n' }

theorem runs_checkStmts_of {ss : List Stmt} (h : ∀ s ∈ ss, RunsAs options s) :
    ∀ k ss' k', (checkStmts options ss).Runs k ss' k' ↔
      ∃ n', RunsStmts options k ss ss' n' ∧ k' = { k with nextExpr := n' } := by
  induction ss with
  | nil =>
    intro k ss' k'
    simp only [checkStmts, runs_pure]
    constructor
    · rintro ⟨rfl, rfl⟩
      exact ⟨_, .nil, rfl⟩
    · rintro ⟨_, ⟨⟩, rfl⟩
      exact ⟨rfl, rfl⟩
  | cons s ss ih =>
    intro k ss' k'
    have hs : RunsAs options s := h s (by simp)
    replace ih := ih fun s hs => h s (by simp [hs])
    simp only [checkStmts, runs_bind, runs_reportUnreachable, hs _ _ _, ih, runs_pure]
    constructor
    · rintro ⟨s', _, ⟨n₁, hrun, rfl⟩, _, _, ⟨hreached, rfl⟩, ss', _, ⟨n', hrest, rfl⟩, rfl, rfl⟩
      exact ⟨n', .cons hrun hreached hrest, rfl⟩
    · rintro ⟨n', h, rfl⟩
      cases h with
      | @cons _ _ s' _ ss' n₁ _ hrun hreached hrest =>
        exact ⟨s', _, ⟨n₁, hrun, rfl⟩, (), _, ⟨hreached, rfl⟩, ss', _, ⟨n', hrest, rfl⟩, rfl, rfl⟩

/-- Closing the scope of a block leaves what was known in front of it. -/
theorem closeScope_of_outer {env env' : Env} (h : env'.outer = env.openScope.outer) : env'.closeScope = env := by
  unfold Scopes.closeScope
  rw [h]
  rfl

theorem runs_compound {info : StmtInfo} {decls : List VarDecl} {stmts : List Stmt}
    (h : ∀ s ∈ stmts, RunsAs options s) : RunsAs options (.compound info decls stmts) := by
  intro k s' k'
  simp only [checkStmt, runs_bind, runs_openScope, runs_checkStmts_of h, runs_closeScope, runs_pure]
  constructor
  · rintro ⟨_, _, rfl, decls', k₁, hdecls, stmts', _, ⟨n', hstmts, rfl⟩, _, _, rfl, rfl, rfl⟩
    obtain ⟨houter, hdepth, hfunction⟩ := frame_checkVarDecls hdecls
    refine ⟨n', .compound hdecls hstmts, ?_⟩
    rw [closeScope_of_outer houter, hdepth, hfunction]
  · rintro ⟨n', h, rfl⟩
    cases h with
    | @compound _ k₁ _ _ decls' _ stmts' _ hdecls hstmts =>
      obtain ⟨houter, hdepth, hfunction⟩ := frame_checkVarDecls hdecls
      refine ⟨(), _, rfl, decls', k₁, hdecls, stmts', _, ⟨n', hstmts, rfl⟩, (), _, rfl, rfl, ?_⟩
      rw [closeScope_of_outer houter, hdepth, hfunction]

theorem runs_checkStmt (options : Options) (s : Stmt) : RunsAs options s := by
  induction s using Stmt.induct with
  | compound info decls stmts ih => exact runs_compound ih
  | ifThen info cond thenBranch ih =>
    intro k s' k'
    simp only [checkStmt, runs_bind, runs_checkCondition, ih _ _ _, runs_pure]
    constructor
    · rintro ⟨cond', _, ⟨n₁, hcond, rfl⟩, then', _, ⟨n', hthen, rfl⟩, rfl, rfl⟩
      exact ⟨n', .ifThen hcond hthen, rfl⟩
    · rintro ⟨n', h, rfl⟩
      cases h with
      | ifThen hcond hthen => exact ⟨_, _, ⟨_, hcond, rfl⟩, _, _, ⟨n', hthen, rfl⟩, rfl, rfl⟩
  | ifElse info cond thenBranch elseBranch ihThen ihElse =>
    intro k s' k'
    simp only [checkStmt, runs_bind, runs_checkCondition, ihThen _ _ _, ihElse _ _ _, runs_pure]
    constructor
    · rintro ⟨cond', _, ⟨n₁, hcond, rfl⟩, then', _, ⟨n₂, hthen, rfl⟩, else', _, ⟨n', helse, rfl⟩, rfl, rfl⟩
      exact ⟨n', .ifElse hcond hthen helse, rfl⟩
    · rintro ⟨n', h, rfl⟩
      cases h with
      | ifElse hcond hthen helse =>
        exact ⟨_, _, ⟨_, hcond, rfl⟩, _, _, ⟨_, hthen, rfl⟩, _, _, ⟨n', helse, rfl⟩, rfl, rfl⟩
  | whileStmt info cond body ih =>
    intro k s' k'
    simp only [checkStmt, runs_bind, runs_enterLoop, runs_checkCondition, ih _ _ _, runs_leaveLoop, runs_pure]
    constructor
    · rintro ⟨_, _, rfl, cond', _, ⟨n₁, hcond, rfl⟩, body', _, ⟨n', hbody, rfl⟩, _, _, rfl, rfl, rfl⟩
      exact ⟨n', .whileStmt hcond hbody, rfl⟩
    · rintro ⟨n', h, rfl⟩
      cases h with
      | whileStmt hcond hbody =>
        exact ⟨(), _, rfl, _, _, ⟨_, hcond, rfl⟩, _, _, ⟨n', hbody, rfl⟩, (), _, rfl, rfl, rfl⟩
  | forStmt info init cond update body ih =>
    intro k s' k'
    simp only [checkStmt, runs_bind, runs_enterLoop, runs_checkOption, ih _ _ _, runs_leaveLoop, runs_pure]
    constructor
    · rintro ⟨_, _, rfl, init', _, ⟨n₁, hinit, rfl⟩, filled, k₁, hfill, cond', k₂, hcheck, h⟩
      -- filling in a condition and checking it are two steps of the check and one of the relation
      obtain ⟨n₂, hcond, rfl⟩ := runs_forCondition.1 (runs_bind.2 ⟨filled, k₁, hfill, hcheck⟩)
      obtain ⟨update', _, ⟨n₃, hupdate, rfl⟩, body', _, ⟨n', hbody, rfl⟩, _, _, rfl, rfl, rfl⟩ := h
      exact ⟨n', .forStmt hinit hcond hupdate hbody, rfl⟩
    · rintro ⟨n', h, rfl⟩
      cases h with
      | @forStmt _ _ _ init' _ _ update' cond' _ body' n₁ n₂ n₃ _ hinit hcond hupdate hbody =>
        let k₁ : Checker := { k with loopDepth := k.loopDepth + 1, nextExpr := n₁ }
        obtain ⟨filled, k₂, hfill, hcheck⟩ := runs_bind.1
          ((@runs_forCondition k₁ _ _ .forConditionNotBoolean _ _).2 ⟨n₂, hcond, rfl⟩)
        exact ⟨(), _, rfl, init', _, ⟨n₁, hinit, rfl⟩, filled, k₂, hfill, cond', _, hcheck,
          update', _, ⟨n₃, hupdate, rfl⟩, body', _, ⟨n', hbody, rfl⟩, (), _, rfl, rfl, rfl⟩
  | breakStmt info =>
    intro k s' k'
    simp only [checkStmt, runs_bind, runs_requireLoop, runs_pure]
    constructor
    · rintro ⟨_, _, ⟨hloop, rfl⟩, rfl, rfl⟩
      exact ⟨_, .breakStmt hloop, rfl⟩
    · rintro ⟨n', h, rfl⟩
      cases h with
      | breakStmt hloop => exact ⟨(), k, ⟨hloop, rfl⟩, rfl, rfl⟩
  | continueStmt info =>
    intro k s' k'
    simp only [checkStmt, runs_bind, runs_requireLoop, runs_pure]
    constructor
    · rintro ⟨_, _, ⟨hloop, rfl⟩, rfl, rfl⟩
      exact ⟨_, .continueStmt hloop, rfl⟩
    · rintro ⟨n', h, rfl⟩
      cases h with
      | continueStmt hloop => exact ⟨(), k, ⟨hloop, rfl⟩, rfl, rfl⟩
  | returnStmt info value =>
    intro k s' k'
    simp only [checkStmt, runs_bind, runs_checkReturn, runs_pure]
    constructor
    · rintro ⟨value', _, ⟨n', hvalue, rfl⟩, rfl, rfl⟩
      exact ⟨n', .returnStmt hvalue, rfl⟩
    · rintro ⟨n', h, rfl⟩
      cases h with
      | returnStmt hvalue => exact ⟨_, _, ⟨n', hvalue, rfl⟩, rfl, rfl⟩
  | exprStmt info expr =>
    intro k s' k'
    simp only [checkStmt, runs_bind, runs_onExpr, runs_pure]
    constructor
    · rintro ⟨expr', _, ⟨n', hexpr, rfl⟩, rfl, rfl⟩
      exact ⟨n', .exprStmt hexpr, rfl⟩
    · rintro ⟨n', h, rfl⟩
      cases h with
      | exprStmt hexpr => exact ⟨_, _, ⟨n', hexpr, rfl⟩, rfl, rfl⟩
  | emptyStmt info =>
    intro k s' k'
    simp only [checkStmt, runs_pure]
    constructor
    · rintro ⟨rfl, rfl⟩
      exact ⟨_, .emptyStmt, rfl⟩
    · rintro ⟨n', h, rfl⟩
      cases h with
      | emptyStmt => exact ⟨rfl, rfl⟩

theorem runs_checkStmts {ss ss' : List Stmt} :
    (checkStmts options ss).Runs k ss' k' ↔ ∃ n', RunsStmts options k ss ss' n' ∧ k' = { k with nextExpr := n' } :=
  runs_checkStmts_of (fun s _ => runs_checkStmt options s) k ss' k'

end VCLang.Typing
