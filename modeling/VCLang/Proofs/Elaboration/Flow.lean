/-
Where control leaves a statement is the same behind a check, whatever the check reports: conversions do not matter
to it, and a condition that is put in is the one that counts where none is written.
-/
import VCLang.Proofs.Elaboration.Statement
namespace VCLang.Typing

variable {env : Env} {n n' : Nat} {errors : List Error}

theorem Elaborates.isTrueLiteral {e e' : Expr} (h : Elaborates env n e e' n' errors) :
    e'.isTrueLiteral = e.isTrueLiteral := by
  cases h <;> rfl

/-- A statement is left behind its check as it was before, by a `break` and by a `return`. -/
def KeepsFlow (s : Stmt) : Prop :=
  ∀ ⦃env n s' n' errors⦄, ElaboratesStmt env n s s' n' errors →
    s'.breaksOut = s.breaksOut ∧ s'.alwaysReturns = s.alwaysReturns

theorem ElaboratesStmts.flow_of {ss ss' : List Stmt} (h : ElaboratesStmts env n ss ss' n' errors)
    (hss : ∀ s ∈ ss, KeepsFlow s) : Stmt.anyBreaksOut ss' = Stmt.anyBreaksOut ss ∧
      Stmt.anyAlwaysReturns ss' = Stmt.anyAlwaysReturns ss := by
  induction ss generalizing n ss' errors with
  | nil =>
    cases h
    exact ⟨rfl, rfl⟩
  | cons s ss ih =>
    cases h with
    | cons hs _ hrest =>
      obtain ⟨hbreak, hreturn⟩ := hss s (by simp) hs
      obtain ⟨hbreaks, hreturns⟩ := ih hrest fun s hs => hss s (by simp [hs])
      simp [Stmt.anyBreaksOut, Stmt.anyAlwaysReturns, hbreak, hreturn, hbreaks, hreturns]

theorem keepsFlow (s : Stmt) : KeepsFlow s := by
  induction s using Stmt.induct with
  | compound info decls stmts ih =>
    intro env n s' n' errors h
    cases h with
    | compound _ hstmts => exact hstmts.flow_of ih
  | ifThen info cond thenBranch ih =>
    intro env n s' n' errors h
    cases h with
    | ifThen _ _ hthen => exact ⟨(ih hthen).1, rfl⟩
  | ifElse info cond thenBranch elseBranch ihThen ihElse =>
    intro env n s' n' errors h
    cases h with
    | ifElse _ _ hthen helse =>
      obtain ⟨hbreak, hreturn⟩ := ihThen hthen
      obtain ⟨hbreak', hreturn'⟩ := ihElse helse
      simp [Stmt.breaksOut, Stmt.alwaysReturns, hbreak, hreturn, hbreak', hreturn']
  | whileStmt info cond body ih =>
    intro env n s' n' errors h
    cases h with
    | whileStmt hcond _ hbody =>
      simp [Stmt.breaksOut, Stmt.alwaysReturns, hcond.isTrueLiteral, (ih hbody).1]
  | forStmt info init cond update body ih =>
    intro env n s' n' errors h
    cases h with
    | forStmt _ hcond _ hbody =>
      cases hcond with
      | omitted => simp [Stmt.breaksOut, Stmt.alwaysReturns, (ih hbody).1, Expr.isTrueLiteral, Expr.kind,
          ExprKind.isTrueLiteral]
      | given hcond _ => simp [Stmt.breaksOut, Stmt.alwaysReturns, hcond.isTrueLiteral, (ih hbody).1]
  | _ =>
    intro env n s' n' errors h
    cases h
    exact ⟨rfl, rfl⟩

/-- A function whose body always returns does so behind its check, and no other. -/
theorem ElaboratesStmts.alwaysReturns {ss ss' : List Stmt} (h : ElaboratesStmts env n ss ss' n' errors)
    (info : StmtInfo) (ds ds' : List VarDecl) :
    (Stmt.compound info ds' ss').alwaysReturns = (Stmt.compound info ds ss).alwaysReturns :=
  (h.flow_of fun s _ => keepsFlow s).2

end VCLang.Typing
