/-
The parts of a statement: the variables, the expressions and the statements directly under its root. In the flat form
the root has the same parts, and the nodes of a statement are those of its parts, and the root.
-/
import VCLang.Proofs.Tree.Numbering
import VCLang.Proofs.Tree.Source
namespace VCLang

/-! ## Variables -/

theorem Expr.entriesOption_eq (parent : NodeId) (o : Option Expr) :
    Expr.entriesOption parent o = o.toList.flatMap (Expr.entries parent) := by
  cases o <;> simp [Expr.entriesOption]

theorem VarDecl.kind_children (d : VarDecl) : d.kind.children = d.init.toList.map (.expr ·.id) := by
  unfold kind
  split <;> cases d.init <;> rfl

/-! ## Statements -/

namespace Stmt

/-- The variables that are declared directly in a statement. -/
def vars : Stmt → List VarDecl
  | compound _ decls _ => decls
  | _ => []

/-- The expressions directly under a statement. -/
def exprs : Stmt → List Expr
  | ifThen _ cond _ => [cond]
  | ifElse _ cond _ _ => [cond]
  | whileStmt _ cond _ => [cond]
  | forStmt _ init cond update _ => init.toList ++ cond.toList ++ update.toList
  | returnStmt _ value => value.toList
  | exprStmt _ expr => [expr]
  | compound _ _ _ | breakStmt _ | continueStmt _ | emptyStmt _ => []

/-- The statements directly under a statement. -/
def stmts : Stmt → List Stmt
  | compound _ _ stmts => stmts
  | ifThen _ _ thenBranch => [thenBranch]
  | ifElse _ _ thenBranch elseBranch => [thenBranch, elseBranch]
  | whileStmt _ _ body => [body]
  | forStmt _ _ _ _ body => [body]
  | breakStmt _ | continueStmt _ | returnStmt _ _ | exprStmt _ _ | emptyStmt _ => []

/-- The parts of the root are the same in both forms. -/
theorem kind_children (s : Stmt) : s.kind.children =
    s.vars.map (.decl ·.id) ++ s.exprs.map (.expr ·.id) ++ s.stmts.map (.stmt ·.id) := by
  have hoption (o : Option Expr) : (o.map (·.id)).toList = o.toList.map (·.id) := by
    cases o <;> rfl
  cases s <;> simp [kind, StmtKind.children, vars, exprs, stmts, Function.comp_def, hoption]

/-- The nodes of a statement are those of its parts, and the root. -/
theorem entries_eq (s : Stmt) (parent : NodeId) : s.entries parent =
    s.vars.flatMap (VarDecl.entries (.stmt s.id)) ++ s.exprs.flatMap (Expr.entries (.stmt s.id)) ++
      s.stmts.flatMap (entries (.stmt s.id)) ++ [s.entry parent] := by
  cases s <;> simp [entries, entriesAll_eq, Expr.entriesOption_eq, vars, exprs, stmts, id, info]

/-- Induction over statements by the statements directly under the root. -/
theorem induct_stmts {P : Stmt → Prop} (h : ∀ s, (∀ c ∈ s.stmts, P c) → P s) (s : Stmt) : P s := by
  induction s using Stmt.induct <;> exact h _ (by simp_all [stmts])

end Stmt

/-! ## Parts of a source tree -/

theorem Expr.Plain.children {e : Expr} (h : e.Plain) : ∀ c ∈ e.children, c.Plain := by
  cases h with
  | call hargs => exact hargs
  | _ => simp_all [Expr.children]

/-- No part of an expression is a list, even if the expression is one itself. -/
theorem Expr.PlainInit.children {e : Expr} (h : e.PlainInit) : ∀ c ∈ e.children, c.Plain := by
  cases h with
  | expr he => exact he.children
  | list helements => exact helements

theorem Stmt.Plain.exprs {s : Stmt} (h : s.Plain) : ∀ e ∈ s.exprs, e.Plain := by
  cases h with
  | forStmt hinit hcond hupdate =>
    simp only [Stmt.exprs, List.mem_append, Option.mem_toList]
    rintro e ((he | he) | he)
    · exact hinit e he
    · exact hcond e he
    · exact hupdate e he
  | returnStmt hvalue => simpa [Stmt.exprs] using hvalue
  | _ => simp_all [Stmt.exprs]

theorem Stmt.Plain.vars {s : Stmt} (h : s.Plain) : ∀ d ∈ s.vars, d.Plain := by
  cases h with
  | compound hdecls => exact hdecls
  | _ => simp [Stmt.vars]

theorem Stmt.Plain.stmts {s : Stmt} (h : s.Plain) : ∀ t ∈ s.stmts, t.Plain := by
  cases h with
  | compound _ hstmts => exact hstmts
  | _ => simp_all [Stmt.stmts]

end VCLang
