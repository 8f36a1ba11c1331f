/-
The functions that look for a `return` on every path and for a `break` decide the judgements of the static
semantics, and the check of a statement changes neither.
-/
import VCLang.Proofs.Tree.Source
import VCLang.Proofs.Typing.Statement
namespace VCLang

open Static

namespace Stmt

theorem breaksOut_iff (s : Stmt) : s.breaksOut = true ↔ Leaves s := by
  induction s using Stmt.induct with
  | compound info decls stmts ih =>
    rw [breaksOut, anyBreaksOut_eq, List.any_eq_true]
    constructor
    · rintro ⟨s, hs, hbreak⟩
      exact .compound hs ((ih s hs).1 hbreak)
    · intro h
      cases h with
      | compound hs hleaves => exact ⟨_, hs, (ih _ hs).2 hleaves⟩
  | ifThen info cond thenBranch ih =>
    rw [breaksOut, ih]
    constructor
    · exact .ifThen
    · intro h
      cases h with
      | ifThen h => exact h
  | ifElse info cond thenBranch elseBranch ihThen ihElse =>
    rw [breaksOut, Bool.or_eq_true, ihThen, ihElse]
    constructor
    · rintro (h | h)
      · exact .ifElseThen h
      · exact .ifElseElse h
    · intro h
      cases h with
      | ifElseThen h => exact .inl h
      | ifElseElse h => exact .inr h
  | breakStmt info => exact iff_of_true rfl .breakStmt
  | _ =>
    refine iff_of_false (by simp [breaksOut]) ?_
    rintro ⟨⟩

theorem not_breaksOut_iff {s : Stmt} : (!s.breaksOut) = true ↔ ¬ Leaves s := by
  rw [Bool.not_eq_true', ← breaksOut_iff, Bool.not_eq_true]

theorem alwaysReturns_iff (s : Stmt) : s.alwaysReturns = true ↔ Returns s := by
  induction s using Stmt.induct with
  | compound info decls stmts ih =>
    rw [alwaysReturns, anyAlwaysReturns_eq, List.any_eq_true]
    constructor
    · rintro ⟨s, hs, hreturns⟩
      exact .compound hs ((ih s hs).1 hreturns)
    · intro h
      cases h with
      | compound hs hreturns => exact ⟨_, hs, (ih _ hs).2 hreturns⟩
  | ifElse info cond thenBranch elseBranch ihThen ihElse =>
    rw [alwaysReturns, Bool.and_eq_true, ihThen, ihElse]
    constructor
    · rintro ⟨hthen, helse⟩
      exact .ifElse hthen helse
    · intro h
      cases h with
      | ifElse hthen helse => exact ⟨hthen, helse⟩
  | whileStmt info cond body ih =>
    rw [alwaysReturns, Bool.and_eq_true, not_breaksOut_iff]
    constructor
    · rintro ⟨hcond, hbody⟩
      exact .whileStmt hcond hbody
    · intro h
      cases h with
      | whileStmt hcond hbody => exact ⟨hcond, hbody⟩
  | forStmt info init cond update body ih =>
    have hcond : (cond.map Expr.isTrueLiteral).getD true = true ↔ ∀ e ∈ cond, e.isTrueLiteral = true := by
      cases cond <;> simp
    rw [alwaysReturns, Bool.and_eq_true, not_breaksOut_iff, hcond]
    constructor
    · rintro ⟨hcond, hbody⟩
      exact .forStmt hcond hbody
    · intro h
      cases h with
      | forStmt hcond hbody => exact ⟨hcond, hbody⟩
  | returnStmt info value => exact iff_of_true rfl .returnStmt
  | _ =>
    refine iff_of_false (by simp [alwaysReturns]) ?_
    rintro ⟨⟩

end Stmt

namespace Typing

open Check

variable {options : Options} {env : Env} {whole : Bool}

/-! ## Checked statements -/

theorem flow_checkStmts_of {ss : List Stmt} (h : ∀ s ∈ ss, ∀ {k s' n'}, RunsStmt options k s s' n' →
    s'.breaksOut = s.breaksOut ∧ s'.alwaysReturns = s.alwaysReturns) :
    ∀ {k ss' n'}, RunsStmts options k ss ss' n' →
      Stmt.anyBreaksOut ss' = Stmt.anyBreaksOut ss ∧ Stmt.anyAlwaysReturns ss' = Stmt.anyAlwaysReturns ss := by
  induction ss with
  | nil =>
    rintro _ _ _ ⟨⟩
    exact ⟨rfl, rfl⟩
  | cons s ss ih =>
    intro k ss' n' hrun
    cases hrun with
    | cons hs _ hss =>
      obtain ⟨hbreak, hreturn⟩ := h s (by simp) hs
      obtain ⟨hbreaks, hreturns⟩ := ih (fun s hs => h s (by simp [hs])) hss
      simp [Stmt.anyBreaksOut, Stmt.anyAlwaysReturns, hbreak, hreturn, hbreaks, hreturns]

/-- The check of a statement keeps where control leaves it. -/
theorem flow_checkStmt {s : Stmt} : ∀ {k s' n'}, RunsStmt options k s s' n' →
    s'.breaksOut = s.breaksOut ∧ s'.alwaysReturns = s.alwaysReturns := by
  induction s using Stmt.induct with
  | compound info decls stmts ih =>
    intro k s' n' h
    cases h with
    | compound _ hstmts => exact flow_checkStmts_of ih hstmts
  | ifThen info cond thenBranch ih =>
    intro k s' n' h
    cases h with
    | ifThen _ hthen => exact ⟨(ih hthen).1, rfl⟩
  | ifElse info cond thenBranch elseBranch ihThen ihElse =>
    intro k s' n' h
    cases h with
    | ifElse _ hthen helse =>
      -- both branches count, for a `break` as for a `return`
      obtain ⟨hbreak, hreturn⟩ := ihThen hthen
      obtain ⟨hbreak', hreturn'⟩ := ihElse helse
      simp [Stmt.breaksOut, Stmt.alwaysReturns, hbreak, hreturn, hbreak', hreturn']
  | whileStmt info cond body ih =>
    intro k s' n' h
    cases h with
    | whileStmt hcond hbody =>
      have htrue := (root_checkExpr hcond.1).isTrueLiteral
      simp [Stmt.breaksOut, Stmt.alwaysReturns, htrue, (ih hbody).1]
  | forStmt info init cond update body ih =>
    intro k s' n' h
    cases h with
    | forStmt _ hcond _ hbody =>
      -- an omitted condition counts as `true`, which is what is put in its place
      cases hcond with
      | omitted => simp [Stmt.breaksOut, Stmt.alwaysReturns, (ih hbody).1, Expr.isTrueLiteral, Expr.kind,
          ExprKind.isTrueLiteral]
      | given hcond =>
        have htrue := (root_checkExpr hcond.1).isTrueLiteral
        simp [Stmt.breaksOut, Stmt.alwaysReturns, htrue, (ih hbody).1]
  | _ =>
    intro k s' n' h
    cases h
    exact ⟨rfl, rfl⟩

end Typing

end VCLang
