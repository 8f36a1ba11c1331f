/-
Statements and blocks.
-/
import VCLang.Grammar.Declaration
namespace VCLang.Grammar

open Parse

/-- Completes a statement that began at a position and ends with the token moved past last. -/
def finish (start : Position) (build : StmtInfo → Stmt) : Parse Stmt := do newStmt build (← spanFrom start)

/-- A list of local variables. -/
def localDecls (d : Dispatch) : Parse (List VarDecl) := do
  let start ← start
  let base ← typeName
  let ident ← expectIdent
  varDecls d start base ident false

/-- Declarations, then statements, in braces. -/
def blockWith (d : Dispatch) (stmt : Parse Stmt) : Parse Block := do
  let start := (← expect .lCurly).span.start
  let decls ← many TokenKind.isType (localDecls d)
  let stmts ← many (· ≠ .rCurly) stmt
  let _ ← expect .rCurly
  let s ← finish start (.compound · decls.flatten stmts)
  return ⟨s.info, decls.flatten, stmts⟩

/-- A condition in parentheses. -/
def condition (d : Dispatch) : Parse Expr := do
  let _ ← expect .lParen
  let e ← expression d .lowest
  let _ ← expect .rParen
  return e

/-- An expression that may be absent, and the token that ends it. -/
def optionalExpr (d : Dispatch) (terminator : TokenKind) : Parse (Option Expr) := do
  let e ← if (← kind) = terminator then pure none else some <$> expression d .lowest
  let _ ← expect terminator
  return e

/-- A statement of a given form; `stmt` reads a statement. -/
def statementForm (d : Dispatch) (stmt : Parse Stmt) : StmtForm → Parse Stmt
  | .block => Block.toStmt <$> blockWith d stmt
  | .ifForm => do
    let start := (← advance).span.start
    let cond ← condition d
    let thenBranch ← stmt
    if (← kind) = .kwElse then
      let _ ← advance
      let elseBranch ← stmt
      finish start (.ifElse · cond thenBranch elseBranch)
    else finish start (.ifThen · cond thenBranch)
  | .whileForm => do
    let start := (← advance).span.start
    let cond ← condition d
    let body ← stmt
    finish start (.whileStmt · cond body)
  | .forForm => do
    let start := (← advance).span.start
    let _ ← expect .lParen
    let init ← optionalExpr d .semicolon
    let cond ← optionalExpr d .semicolon
    let update ← optionalExpr d .rParen
    let body ← stmt
    finish start (.forStmt · init cond update body)
  | .breakForm => do
    let start := (← advance).span.start
    let _ ← expect .semicolon
    finish start .breakStmt
  | .continueForm => do
    let start := (← advance).span.start
    let _ ← expect .semicolon
    finish start .continueStmt
  | .returnForm => do
    let start := (← advance).span.start
    let value ← optionalExpr d .semicolon
    finish start (.returnStmt · value)
  | .emptyForm => do
    let start := (← advance).span.start
    finish start .emptyStmt

/-- An expression as a statement. -/
def exprStatement (d : Dispatch) : Parse Stmt := do
  let start ← start
  let e ← expression d .lowest
  let _ ← expect .semicolon
  finish start (.exprStmt · e)

/-- A statement, with `n` statements inside each other at most. -/
def statementUpTo (d : Dispatch) : Nat → Parse Stmt
  | 0 => illegalPrimary
  | n + 1 => do
    match d.statement (← kind) with
    | some form => statementForm d (statementUpTo d n) form
    | none => exprStatement d

/-- A statement. Each statement inside another begins one token later at least, so that they are no deeper
than there are tokens. -/
def statement (d : Dispatch) : Parse Stmt := fun p => statementUpTo d (p.remaining + 1) p

/-- A block. -/
def block (d : Dispatch) : Parse Block := blockWith d (statement d)

end VCLang.Grammar
