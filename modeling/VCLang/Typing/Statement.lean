/-
Checking declarations and statements. The state is what is known at a place of a program: the names in
scope, how many loops are open, and the function the place is in.
-/
import VCLang.Flow
import VCLang.Typing.Expression
namespace VCLang.Typing

/-- What the check reports beyond errors in the strict sense. -/
structure Options where
  /-- Statements right behind a `return`. -/
  reportUnreachable : Bool
  /-- Functions with a result whose end can be reached. -/
  reportMissingReturn : Bool
  deriving DecidableEq, Repr

/-- Everything is reported. -/
def Options.standard : Options := ⟨true, true⟩

/-- Nothing but errors is reported. -/
def Options.quiet : Options := ⟨false, false⟩

/-- What is known at a place of a program. -/
structure Checker where
  env : Env
  /-- How many loops the place is in. -/
  loopDepth : Nat
  /-- The function the place is in. -/
  function : Option Prototype
  /-- The number of the next new expression. -/
  nextExpr : Nat

/-- Runs the check of an expression with the names in scope. -/
def onExpr {α : Type} (m : Env → Check Nat α) : Check Checker α := fun k =>
  let o := m k.env k.nextExpr
  ⟨o.value, { k with nextExpr := o.state }, o.errors⟩

/-! ## The state -/

def openScope : Check Checker Unit := Check.modify fun k => { k with env := k.env.openScope }

def closeScope : Check Checker Unit := Check.modify fun k => { k with env := k.env.closeScope }

def enterLoop : Check Checker Unit := Check.modify fun k => { k with loopDepth := k.loopDepth + 1 }

def leaveLoop : Check Checker Unit := Check.modify fun k => { k with loopDepth := k.loopDepth - 1 }

/-- Binds a name in the innermost scope, whether or not it is bound there already. -/
def bindName (name : String) (b : Binding) : Check Checker Unit :=
  Check.modify fun k => { k with env := k.env.insert name b }

/-- Declares a name. It is reported if the innermost scope has it already. -/
def declare (ident : Ident) (b : Binding) : Check Checker Unit := do
  let k ← Check.get
  if (k.env.retrieveOneLevel ident.spelling).isSome then
    Check.report (.redeclared ident.spelling) ident.span
  bindName ident.spelling b

/-! ## Variables -/

/-- Checks an expression that may be absent. -/
def checkOption : Option Expr → Check Checker (Option Expr)
  | none => return none
  | some e => do
    let e ← onExpr fun env => checkExpr env false e
    return some e

/-- Checks the initial value of a scalar, which is stored into it. -/
def checkScalarInit (d : VarDecl) (init : Expr) : Check Checker VarDecl := do
  let init ← onExpr fun env => do
    let init ← checkExpr env false init
    settle (storeRuling .incompatibleAssignment d.ty init.type) d.span init
  return { d with init := some init }

/-- Checks an initial value that is not of the kind its variable takes. -/
def checkWrongInit (d : VarDecl) (init : Expr) (f : Fault) : Check Checker VarDecl := do
  let init ← onExpr fun env => checkExpr env false init
  Check.report f d.span
  return { d with init := some init }

/-- Checks the list of initial values of an array. It gives the array its size where that is not written,
and has no more elements than a written size allows. -/
def checkArrayInit (d : VarDecl) (element : Ty) (size : Option Nat) (info : ExprInfo) (elements : List Expr) :
    Check Checker VarDecl := do
  let checked ← onExpr fun env => checkElements env element elements
  let ty : Ty := .array element (some (size.getD elements.length))
  if elements.length > size.getD elements.length then Check.report .excessElements info.span
  return { d with ty, init := some (.initList (info.typed ty) checked) }

/-- Checks a variable that is declared and is of a type that variables have. -/
def checkInit (d : VarDecl) : Check Checker VarDecl :=
  match d.ty, d.init with
  | .array _ none, none => do
    Check.report .arraySizeMissing d.span
    return d
  | _, none => return d
  | .array element size, some (.initList info elements) => checkArrayInit d element size info elements
  | .array _ _, some init => checkWrongInit d init .scalarInitialiserForArray
  | _, some (.initList info elements) => checkWrongInit d (.initList info elements) .arrayInitialiserForScalar
  | _, some init => checkScalarInit d init

/-- Checks a variable. It is in scope from its own initial value on; what follows sees it with the size it
has got there. -/
def checkVarDecl (d : VarDecl) : Check Checker VarDecl := do
  let before ← Check.get
  declare d.ident d.binding
  match voidFault? d.ident.spelling d.ty with
  | some f => do
    Check.report f d.ident.span
    let init ← checkOption d.init
    return { d with init }
  | none => do
    let d ← checkInit d
    Check.modify fun k => { k with env := before.env.insert d.ident.spelling d.binding }
    return d

def checkVarDecls : List VarDecl → Check Checker (List VarDecl)
  | [] => return []
  | d :: ds => do
    let d ← checkVarDecl d
    let ds ← checkVarDecls ds
    return d :: ds

/-! ## Statements -/

/-- Checks the condition of a statement. -/
def checkCondition (fault : Ty → Fault) (cond : Expr) : Check Checker Expr := do
  let cond ← onExpr fun env => checkExpr env false cond
  Check.reportOption (conditionFault? fault cond.type) cond.span
  return cond

/-- The condition of a `for` loop; `true` where it is omitted. -/
def fillCondition (span : Span) : Option Expr → Check Checker Expr
  | some cond => return cond
  | none => do
    let id ← onExpr fun _ => freshExpr
    return .literal ⟨id, span, none⟩ (.boolean "true")

/-- The type of a value that may be absent. -/
def valueType : Option Expr → Ty
  | none => .void
  | some e => e.type

/-- Converts a value, if there is one and it has to be. -/
def settleOption (ruling : Ruling Bool) (span : Span) : Option Expr → Check Nat (Option Expr)
  | none => do
    Check.reportOption ruling.fault? span
    return none
  | some e => some <$> settle ruling span e

/-- Checks what a function returns. -/
def checkReturn (span : Span) (value : Option Expr) : Check Checker (Option Expr) := do
  let value ← checkOption value
  let k ← Check.get
  match k.function with
  | none => return value
  | some f =>
    if f.ident.spelling = "main" then do
      Check.reportOption (mainReturnFault? (valueType value)) span
      return value
    else onExpr fun _ => settleOption (storeRuling .incompatibleReturn f.ty (valueType value)) span value

/-- Reports a statement that belongs into a loop and is in none. -/
def requireLoop (f : Fault) (span : Span) : Check Checker Unit := do
  let k ← Check.get
  if k.loopDepth = 0 then Check.report f span

/-- Reports the statement right behind a `return`. -/
def reportUnreachable (options : Options) (s : Stmt) : List Stmt → Check Checker Unit
  | [] => return
  | next :: _ =>
    if s.isReturn && options.reportUnreachable then Check.report .statementNotReached next.span else return

mutual

/-- Checks a statement. -/
def checkStmt (options : Options) : Stmt → Check Checker Stmt
  | .compound info decls stmts => do
    openScope
    let decls ← checkVarDecls decls
    let stmts ← checkStmts options stmts
    closeScope
    return .compound info decls stmts
  | .ifThen info cond thenBranch => do
    let cond ← checkCondition .ifConditionNotBoolean cond
    let thenBranch ← checkStmt options thenBranch
    return .ifThen info cond thenBranch
  | .ifElse info cond thenBranch elseBranch => do
    let cond ← checkCondition .ifConditionNotBoolean cond
    let thenBranch ← checkStmt options thenBranch
    let elseBranch ← checkStmt options elseBranch
    return .ifElse info cond thenBranch elseBranch
  | .whileStmt info cond body => do
    enterLoop
    let cond ← checkCondition .whileConditionNotBoolean cond
    let body ← checkStmt options body
    leaveLoop
    return .whileStmt info cond body
  | .forStmt info init cond update body => do
    enterLoop
    let init ← checkOption init
    let cond ← fillCondition info.span cond
    let cond ← checkCondition .forConditionNotBoolean cond
    let update ← checkOption update
    let body ← checkStmt options body
    leaveLoop
    return .forStmt info init (some cond) update body
  | .breakStmt info => do
    requireLoop .breakOutsideLoop info.span
    return .breakStmt info
  | .continueStmt info => do
    requireLoop .continueOutsideLoop info.span
    return .continueStmt info
  | .returnStmt info value => do
    let value ← checkReturn info.span value
    return .returnStmt info value
  | .exprStmt info expr => do
    let expr ← onExpr fun env => checkExpr env true expr
    return .exprStmt info expr
  | .emptyStmt info => return .emptyStmt info

/-- Checks statements in order. -/
def checkStmts (options : Options) : List Stmt → Check Checker (List Stmt)
  | [] => return []
  | s :: ss => do
    let s' ← checkStmt options s
    reportUnreachable options s ss
    let ss ← checkStmts options ss
    return s' :: ss

end

end VCLang.Typing
