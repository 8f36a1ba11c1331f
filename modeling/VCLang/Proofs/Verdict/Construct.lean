/-
What a check comes by, piece by piece: an expression, a variable, a statement or a function. Each has its parts, what
it reports beside them, which is a function of what is known at its place and of the types of the expressions that are
parts, and the places that follow for the parts.
-/
import VCLang.Proofs.Elaboration.Flow
import VCLang.Proofs.Tree.Subtrees
import VCLang.Proofs.Verdict.Expression
namespace VCLang

open Typing

/-! ## Constructs -/

/-- What the check goes through. An expression may be a statement by itself. -/
inductive Construct where
  | expr (whole : Bool) (e : Expr)
  | var (d : VarDecl)
  | stmt (s : Stmt)
  | func (f : Function)

/-- The expressions that are checked for a variable: the elements of a list of initial values for an array, else
the initial value. -/
def VarDecl.values (d : VarDecl) : List Expr :=
  match d.ty, d.init with
  | .array .void _, init => init.toList
  | .array _ _, some (.initList _ elements) => elements
  | _, init => init.toList

/-- Whether the expression under a statement is all of it. -/
def Stmt.isExpression : Stmt → Bool
  | exprStmt _ _ => true
  | _ => false

/-- Whether a statement is a loop. -/
def Stmt.isLoop : Stmt → Bool
  | whileStmt _ _ _ => true
  | forStmt _ _ _ _ _ => true
  | _ => false

namespace Construct

/-- What is checked as a part of a construct. -/
def parts : Construct → List Construct
  | expr _ e => e.children.map (expr false)
  | var d => d.values.map (expr false)
  | stmt s => s.vars.map var ++ s.exprs.map (expr s.isExpression) ++ s.stmts.map stmt
  | func f => f.body.decls.map var ++ f.body.stmts.map stmt

/-- The check of a construct. -/
def check (options : Options) : Construct → Check Checker Construct
  | expr whole e => expr whole <$> onExpr fun env => checkExpr env whole e
  | var d => var <$> checkVarDecl d
  | stmt s => stmt <$> checkStmt options s
  | func f => func <$> checkFunction options f

/-- The node of a construct. -/
def node : Construct → NodeId
  | expr _ e => .expr e.id
  | var d => .decl d.id
  | stmt s => .stmt s.id
  | func f => .decl f.id

/-- The nodes of a construct. -/
def entries (parent : NodeId) : Construct → List Entry
  | expr _ e => e.entries parent
  | var d => d.entries parent
  | stmt s => s.entries parent
  | func f => f.entries

/-- Whether a construct is a loop. -/
def isLoop : Construct → Bool
  | stmt s => s.isLoop
  | _ => false

end Construct

/-- Induction over constructs by their parts. -/
theorem Construct.induct {P : Construct → Prop} (h : ∀ c, (∀ d ∈ c.parts, P d) → P c) (c : Construct) : P c := by
  have hexpr (whole : Bool) (e : Expr) : P (.expr whole e) := by
    induction e using Expr.induct_children generalizing whole with
    | h e ih =>
      refine h _ fun d hd => ?_
      obtain ⟨c, hc, rfl⟩ := List.mem_map.1 hd
      exact ih c hc false
  have hvar (d : VarDecl) : P (.var d) := by
    refine h _ fun c hc => ?_
    obtain ⟨e, -, rfl⟩ := List.mem_map.1 hc
    exact hexpr false e
  have hstmt (s : Stmt) : P (.stmt s) := by
    induction s using Stmt.induct_stmts with
    | h s ih =>
      refine h _ fun c hc => ?_
      simp only [parts, List.mem_append, List.mem_map] at hc
      rcases hc with (⟨d, -, rfl⟩ | ⟨e, -, rfl⟩) | ⟨t, ht, rfl⟩
      · exact hvar d
      · exact hexpr _ e
      · exact ih t ht
  cases c with
  | expr whole e => exact hexpr whole e
  | var d => exact hvar d
  | stmt s => exact hstmt s
  | func f =>
    refine h _ fun c hc => ?_
    simp only [parts, List.mem_append, List.mem_map] at hc
    rcases hc with ⟨d, -, rfl⟩ | ⟨s, -, rfl⟩
    · exact hvar d
    · exact hstmt s

/-! ## Own errors -/

/-- What is wrong with a list of initial values for an array. -/
def elementErrors (element : Ty) (size : Option Nat) (info : ExprInfo) (elements : List Expr) (τ : ExprId → Ty) :
    List Error :=
  rowErrors (fun _ => storeRuling .wrongInitialiserElement element) τ 0 elements ++
    if elements.length > size.getD elements.length then [⟨.excessElements, info.span⟩] else []

/-- What is wrong with the initial value of a variable. -/
def VarDecl.initErrors (d : VarDecl) (τ : ExprId → Ty) : List Error :=
  match d.ty, d.init with
  | .array _ none, none => [⟨.arraySizeMissing, d.span⟩]
  | _, none => []
  | .array element size, some (.initList info elements) => elementErrors element size info elements τ
  | .array _ _, some _ => [⟨.scalarInitialiserForArray, d.span⟩]
  | _, some (.initList _ _) => [⟨.arrayInitialiserForScalar, d.span⟩]
  | ty, some init => reported (storeRuling .incompatibleAssignment ty (τ init.id)).fault? d.span

/-- What is wrong with a variable by itself. -/
def VarDecl.ownErrors (d : VarDecl) (env : Env) (τ : ExprId → Ty) : List Error :=
  redeclaration env d.ident ++
    match voidFault? d.ident.spelling d.ty with
    | some f => [⟨f, d.ident.span⟩]
    | none => d.initErrors τ

/-- The statements right behind a `return` in the same list. -/
def Stmt.unreached (ss : List Stmt) : List Stmt := ((ss.zip ss.tail).filter (·.1.isReturn)).map (·.2)

/-- What is reported of statements in a list. -/
def unreachedErrors (options : Options) (ss : List Stmt) : List Error :=
  if options.reportUnreachable then (Stmt.unreached ss).map fun s => ⟨.statementNotReached, s.span⟩ else []

/-- What is wrong with a `return` of a value of a type. -/
def returnErrors (function : Option Prototype) (span : Span) (value : Ty) : List Error :=
  match function with
  | none => []
  | some f =>
    if f.ident.spelling = "main" then reported (mainReturnFault? value) span
    else reported (storeRuling .incompatibleReturn f.ty value).fault? span

/-- What is wrong with a statement by itself. -/
def Stmt.ownErrors (options : Options) (k : Checker) (τ : ExprId → Ty) : Stmt → List Error
  | compound _ _ stmts => unreachedErrors options stmts
  | ifThen _ cond _ => reported (conditionFault? .ifConditionNotBoolean (τ cond.id)) cond.span
  | ifElse _ cond _ _ => reported (conditionFault? .ifConditionNotBoolean (τ cond.id)) cond.span
  | whileStmt _ cond _ => reported (conditionFault? .whileConditionNotBoolean (τ cond.id)) cond.span
  | forStmt _ _ none _ _ => []
  | forStmt _ _ (some cond) _ _ => reported (conditionFault? .forConditionNotBoolean (τ cond.id)) cond.span
  | breakStmt info => if k.loopDepth = 0 then [⟨.breakOutsideLoop, info.span⟩] else []
  | continueStmt info => if k.loopDepth = 0 then [⟨.continueOutsideLoop, info.span⟩] else []
  | returnStmt info none => returnErrors k.function info.span .void
  | returnStmt info (some value) => returnErrors k.function info.span (τ value.id)
  | exprStmt _ _ => []
  | emptyStmt _ => []

/-- What is wrong with parameters, which are declared one after another. -/
def paramErrors (env : Env) : List Param → List Error
  | [] => []
  | p :: ps => redeclaration env p.ident ++ reported (voidFault? p.ident.spelling p.ty) p.ident.span ++
    paramErrors (env.insert p.ident.spelling p.binding) ps

/-- The scopes in which the parameters of a function are declared. -/
def Function.inner (f : Function) (env : Env) : Env := (env.insert f.ident.spelling f.binding).openScope

/-- What is wrong with a function by itself. -/
def Function.ownErrors (options : Options) (env : Env) (f : Function) : List Error :=
  redeclaration env f.ident ++ paramErrors (f.inner env) f.params ++ unreachedErrors options f.body.stmts ++
    reported (missingReturn? options f.ty f.body.toStmt.alwaysReturns) f.span

/-- What is wrong with a construct by itself, at a place and with expressions of the given types for its parts. -/
def Construct.ownErrors (options : Options) (k : Checker) (τ : ExprId → Ty) : Construct → List Error
  | expr whole e => (e.verdict k.env whole τ).errors
  | var d => d.ownErrors k.env τ
  | stmt s => s.ownErrors options k τ
  | func f => f.ownErrors options k.env

/-! ## Places -/

/-- Binds names one after another. -/
def Scopes.bindAll {α : Type} (s : Scopes α) (bs : List (String × α)) : Scopes α :=
  bs.foldl (fun s b => s.insert b.1 b.2) s

theorem Scopes.bindAll_append {α : Type} (s : Scopes α) (bs cs : List (String × α)) :
    s.bindAll (bs ++ cs) = (s.bindAll bs).bindAll cs := List.foldl_append ..

/-- The name of a variable with what is known of it. -/
def VarDecl.bound (d : VarDecl) : String × Binding := (d.ident.spelling, d.binding)

def Param.bound (p : Param) : String × Binding := (p.ident.spelling, p.binding)

namespace Construct

/-- The scopes in which the first part of a construct is. -/
def inner (env : Env) : Construct → Env
  | expr _ _ => env
  | var d => env.insert d.ident.spelling d.binding
  | stmt (.compound _ _ _) => env.openScope
  | stmt _ => env
  | func f => f.inner env

/-- The names that are declared in front of parts of a construct. -/
def declares : Construct → List (String × Binding)
  | stmt (.compound _ decls _) => decls.map VarDecl.bound
  | func f => f.params.map Param.bound ++ f.body.decls.map VarDecl.bound
  | _ => []

/-- The function that the parts of a construct are in. -/
def function (enclosing : Option Prototype) : Construct → Option Prototype
  | func f => some f.toPrototype
  | _ => enclosing

end Construct

namespace Typing

open Check

/-- The check of a construct: where it starts, what it makes of the construct and what it reports. -/
structure Visit where
  place : Checker
  construct : Construct
  result : Construct
  errors : List Error

namespace Visit

variable {options : Options} {v w : Visit}

/-- The check ends so. -/
def Ran (options : Options) (v : Visit) : Prop :=
  ∃ after, (v.construct.check options).Ends v.place v.result after v.errors

/-- Types say what the check has found of an expression. -/
def TypedBy (τ : ExprId → Ty) (v : Visit) : Prop :=
  ∀ whole whole' e e', v.construct = .expr whole e → v.result = .expr whole' e' → τ e.id = e'.type

/-- One check is that of a part of what another checks: it starts where the other one is then, and its result ends
up in that of the other. -/
structure PartOf (w v : Visit) : Prop where
  held : ∀ (b : Arena) parent, b.Has (v.result.entries parent) → ∃ parent', b.Has (w.result.entries parent')
  env : ∃ bs ⊆ v.result.declares, w.place.env = (v.construct.inner v.place.env).bindAll bs
  loopDepth : w.place.loopDepth = v.place.loopDepth + if v.construct.isLoop then 1 else 0
  function : w.place.function = v.construct.function v.place.function

/-- The check of a construct splits into the checks of its parts and what it reports itself. -/
structure Splits (options : Options) (v : Visit) (ws : List Visit) : Prop where
  constructs : ws.map (·.construct) = v.construct.parts
  ran : ∀ w ∈ ws, w.Ran options
  part : ∀ w ∈ ws, w.PartOf v
  typed : ∀ τ, (∀ w ∈ ws, w.TypedBy τ) → ∀ whole whole' e e', v.construct = .expr whole e →
    v.result = .expr whole' e' → e'.type = (e.verdict v.place.env whole τ).ty
  errors : ∀ τ, (∀ w ∈ ws, w.TypedBy τ) →
    v.errors.Perm (v.construct.ownErrors options v.place τ ++ ws.flatMap (·.errors))

end Visit

end Typing

end VCLang
