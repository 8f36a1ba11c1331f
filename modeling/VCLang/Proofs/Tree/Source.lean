/-
Source trees: the trees that a parse builds. No conversion stands in them, a list of initial values stands
only as the initial value of a variable, and the declared types are the four that have a name and arrays of
them. Beside this, induction over expressions and statements, whose parts stand in lists.
-/
import Mathlib.Tactic.Common
import VCLang.Tree.Layout
namespace VCLang

/-! ## Induction -/

/-- Induction over expressions, with the statement for every argument of a call and every element of a list. -/
theorem Expr.induct {P : Expr → Prop}
    (binary : ∀ info op left right, P left → P right → P (.binary info op left right))
    (unary : ∀ info op operand, P operand → P (.unary info op operand))
    (assign : ∀ info target value, P target → P value → P (.assign info target value))
    (var : ∀ info ident, P (.var info ident))
    (arrayAccess : ∀ info ident index, P index → P (.arrayAccess info ident index))
    (call : ∀ info ident args, (∀ a ∈ args, P a) → P (.call info ident args))
    (initList : ∀ info elements, (∀ a ∈ elements, P a) → P (.initList info elements))
    (literal : ∀ info value, P (.literal info value))
    (intToFloat : ∀ info operand, P operand → P (.intToFloat info operand)) (e : Expr) : P e :=
  have ih (e' : Expr) (_ : sizeOf e' < sizeOf e) : P e' :=
    induct binary unary assign var arrayAccess call initList literal intToFloat e'
  match e, ih with
  | .binary _ _ _ _, ih =>
    binary _ _ _ _ (ih _ (by rw [Expr.binary.sizeOf_spec]; omega)) (ih _ (by rw [Expr.binary.sizeOf_spec]; omega))
  | .unary _ _ _, ih => unary _ _ _ (ih _ (by rw [Expr.unary.sizeOf_spec]; omega))
  | .assign _ _ _, ih =>
    assign _ _ _ (ih _ (by rw [Expr.assign.sizeOf_spec]; omega)) (ih _ (by rw [Expr.assign.sizeOf_spec]; omega))
  | .var _ _, _ => var _ _
  | .arrayAccess _ _ _, ih => arrayAccess _ _ _ (ih _ (by rw [Expr.arrayAccess.sizeOf_spec]; omega))
  | .call _ _ _, ih => call _ _ _ fun a ha => ih a <| by
    have hsize := List.sizeOf_lt_of_mem ha
    rw [Expr.call.sizeOf_spec]
    omega
  | .initList _ _, ih => initList _ _ fun a ha => ih a <| by
    have hsize := List.sizeOf_lt_of_mem ha
    rw [Expr.initList.sizeOf_spec]
    omega
  | .literal _ _, _ => literal _ _
  | .intToFloat _ _, ih => intToFloat _ _ (ih _ (by rw [Expr.intToFloat.sizeOf_spec]; omega))
termination_by sizeOf e

/-- Induction over expressions by the expressions directly under the root. -/
theorem Expr.induct_children {P : Expr → Prop} (h : ∀ e, (∀ c ∈ e.children, P c) → P e) (e : Expr) : P e := by
  induction e using Expr.induct <;> exact h _ (by simp_all [children])

/-- Induction over statements, with the statement for every statement of a block. -/
theorem Stmt.induct {P : Stmt → Prop}
    (compound : ∀ info decls stmts, (∀ s ∈ stmts, P s) → P (.compound info decls stmts))
    (ifThen : ∀ info cond thenBranch, P thenBranch → P (.ifThen info cond thenBranch))
    (ifElse : ∀ info cond thenBranch elseBranch, P thenBranch → P elseBranch →
      P (.ifElse info cond thenBranch elseBranch))
    (whileStmt : ∀ info cond body, P body → P (.whileStmt info cond body))
    (forStmt : ∀ info init cond update body, P body → P (.forStmt info init cond update body))
    (breakStmt : ∀ info, P (.breakStmt info)) (continueStmt : ∀ info, P (.continueStmt info))
    (returnStmt : ∀ info value, P (.returnStmt info value)) (exprStmt : ∀ info expr, P (.exprStmt info expr))
    (emptyStmt : ∀ info, P (.emptyStmt info)) (s : Stmt) : P s :=
  have ih (s' : Stmt) (_ : sizeOf s' < sizeOf s) : P s' :=
    induct compound ifThen ifElse whileStmt forStmt breakStmt continueStmt returnStmt exprStmt emptyStmt s'
  match s, ih with
  | .compound _ _ _, ih => compound _ _ _ fun a ha => ih a <| by
    have hsize := List.sizeOf_lt_of_mem ha
    rw [Stmt.compound.sizeOf_spec]
    omega
  | .ifThen _ _ _, ih => ifThen _ _ _ (ih _ (by rw [Stmt.ifThen.sizeOf_spec]; omega))
  | .ifElse _ _ _ _, ih =>
    ifElse _ _ _ _ (ih _ (by rw [Stmt.ifElse.sizeOf_spec]; omega)) (ih _ (by rw [Stmt.ifElse.sizeOf_spec]; omega))
  | .whileStmt _ _ _, ih => whileStmt _ _ _ (ih _ (by rw [Stmt.whileStmt.sizeOf_spec]; omega))
  | .forStmt _ _ _ _ _, ih => forStmt _ _ _ _ _ (ih _ (by rw [Stmt.forStmt.sizeOf_spec]; omega))
  | .breakStmt _, _ => breakStmt _
  | .continueStmt _, _ => continueStmt _
  | .returnStmt _ _, _ => returnStmt _ _
  | .exprStmt _ _, _ => exprStmt _ _
  | .emptyStmt _, _ => emptyStmt _
termination_by sizeOf s

/-! ## Source trees -/

/-- A type that a declaration can name: one of the four with a name, or an array of them. -/
inductive Ty.Declared : Ty → Prop
  | void : Declared .void
  | boolean : Declared .boolean
  | int : Declared .int
  | float : Declared .float
  | array {t : Ty} {size : Option Nat} : t.isArray = false → Declared t → Declared (.array t size)

/-- An expression of a source tree. -/
inductive Expr.Plain : Expr → Prop
  | binary {info : ExprInfo} {op : Operator} {left right : Expr} : Plain left → Plain right →
    Plain (.binary info op left right)
  | unary {info : ExprInfo} {op : Operator} {operand : Expr} : Plain operand → Plain (.unary info op operand)
  | assign {info : ExprInfo} {target value : Expr} : Plain target → Plain value →
    Plain (.assign info target value)
  | var {info : ExprInfo} {ident : Ident} : Plain (.var info ident)
  | arrayAccess {info : ExprInfo} {ident : Ident} {index : Expr} : Plain index →
    Plain (.arrayAccess info ident index)
  | call {info : ExprInfo} {ident : Ident} {args : List Expr} : (∀ a ∈ args, Plain a) →
    Plain (.call info ident args)
  | literal {info : ExprInfo} {value : Literal} : Plain (.literal info value)

/-- An initial value of a source tree: an expression, or a list of expressions. -/
inductive Expr.PlainInit : Expr → Prop
  | expr {e : Expr} : e.Plain → PlainInit e
  | list {info : ExprInfo} {elements : List Expr} : (∀ e ∈ elements, e.Plain) →
    PlainInit (.initList info elements)

/-- A variable of a source tree. -/
structure VarDecl.Plain (d : VarDecl) : Prop where
  ty : d.ty.Declared
  init : ∀ e ∈ d.init, e.PlainInit

/-- An initial value that is not a list is an expression. -/
theorem VarDecl.Plain.expr {d : VarDecl} (hd : d.Plain) {e : Expr} (h : d.init = some e)
    (hlist : ∀ info elements, e ≠ .initList info elements) : e.Plain := by
  cases hd.init e h with
  | expr he => exact he
  | list => exact absurd rfl (hlist _ _)

theorem VarDecl.Plain.elements {d : VarDecl} (hd : d.Plain) {info : ExprInfo} {elements : List Expr}
    (h : d.init = some (.initList info elements)) : ∀ e ∈ elements, e.Plain := by
  cases hd.init _ h with
  | expr he => cases he
  | list he => exact he

/-- A statement of a source tree. -/
inductive Stmt.Plain : Stmt → Prop
  | compound {info : StmtInfo} {decls : List VarDecl} {stmts : List Stmt} : (∀ d ∈ decls, d.Plain) →
    (∀ s ∈ stmts, Plain s) → Plain (.compound info decls stmts)
  | ifThen {info : StmtInfo} {cond : Expr} {thenBranch : Stmt} : cond.Plain → Plain thenBranch →
    Plain (.ifThen info cond thenBranch)
  | ifElse {info : StmtInfo} {cond : Expr} {thenBranch elseBranch : Stmt} : cond.Plain → Plain thenBranch →
    Plain elseBranch → Plain (.ifElse info cond thenBranch elseBranch)
  | whileStmt {info : StmtInfo} {cond : Expr} {body : Stmt} : cond.Plain → Plain body →
    Plain (.whileStmt info cond body)
  | forStmt {info : StmtInfo} {init cond update : Option Expr} {body : Stmt} : (∀ e ∈ init, e.Plain) →
    (∀ e ∈ cond, e.Plain) → (∀ e ∈ update, e.Plain) → Plain body → Plain (.forStmt info init cond update body)
  | breakStmt {info : StmtInfo} : Plain (.breakStmt info)
  | continueStmt {info : StmtInfo} : Plain (.continueStmt info)
  | returnStmt {info : StmtInfo} {value : Option Expr} : (∀ e ∈ value, e.Plain) → Plain (.returnStmt info value)
  | exprStmt {info : StmtInfo} {expr : Expr} : expr.Plain → Plain (.exprStmt info expr)
  | emptyStmt {info : StmtInfo} : Plain (.emptyStmt info)

/-- A function of a source tree. -/
structure Function.Plain (f : Function) : Prop where
  ty : f.ty.Declared
  scalar : f.ty.isArray = false
  params : ∀ p ∈ f.params, p.ty.Declared
  body : f.body.toStmt.Plain

theorem Function.Plain.parts {f : Function} (hf : f.Plain) :
    (∀ d ∈ f.body.decls, d.Plain) ∧ ∀ s ∈ f.body.stmts, s.Plain := by
  cases hf.body with
  | compound hdecls hstmts => exact ⟨hdecls, hstmts⟩

/-- A declaration of a source tree outside all functions. -/
inductive TopDecl.Plain : TopDecl → Prop
  | func {f : Function} : f.Plain → Plain (.func f)
  | var {d : VarDecl} : d.Plain → Plain (.var d)

/-- The tree of a program that no check has seen. -/
structure Program.Plain (p : Program) : Prop where
  decls : ∀ d ∈ p.decls, d.Plain
  predeclared : p.predeclared = []

theorem Program.Plain.entries_eq {p : Program} (hp : p.Plain) : p.entries = p.decls.flatMap TopDecl.entries := by
  rw [Program.entries, hp.predeclared, List.flatMap_nil, List.append_nil]

end VCLang
