/-
Statements as trees, with the variables that are declared in them.
-/
import VCLang.Tree.Expr
namespace VCLang

/-- What every statement carries. -/
structure StmtInfo where
  id : StmtId
  span : Span
  deriving DecidableEq, Repr, Inhabited

/-- The declaration of one variable. -/
structure VarDecl where
  id : DeclId
  ident : Ident
  ty : Ty
  span : Span
  isGlobal : Bool
  init : Option Expr
  deriving Repr, Inhabited

/-- The flat form of a variable. -/
def VarDecl.kind (d : VarDecl) : DeclKind :=
  if d.isGlobal then .globalVar (d.init.map Expr.id) else .localVar (d.init.map Expr.id)

inductive Stmt where
  | compound (info : StmtInfo) (decls : List VarDecl) (stmts : List Stmt)
  | ifThen (info : StmtInfo) (cond : Expr) (thenBranch : Stmt)
  | ifElse (info : StmtInfo) (cond : Expr) (thenBranch elseBranch : Stmt)
  | whileStmt (info : StmtInfo) (cond : Expr) (body : Stmt)
  | forStmt (info : StmtInfo) (init cond update : Option Expr) (body : Stmt)
  | breakStmt (info : StmtInfo)
  | continueStmt (info : StmtInfo)
  | returnStmt (info : StmtInfo) (value : Option Expr)
  | exprStmt (info : StmtInfo) (expr : Expr)
  | emptyStmt (info : StmtInfo)
  deriving Repr, Inhabited

namespace Stmt

def info : Stmt → StmtInfo
  | compound info _ _ => info
  | ifThen info _ _ => info
  | ifElse info _ _ _ => info
  | whileStmt info _ _ => info
  | forStmt info _ _ _ _ => info
  | breakStmt info => info
  | continueStmt info => info
  | returnStmt info _ => info
  | exprStmt info _ => info
  | emptyStmt info => info

def id (s : Stmt) : StmtId := s.info.id

def span (s : Stmt) : Span := s.info.span

/-- The flat form of the root of a tree. -/
def kind : Stmt → StmtKind
  | compound _ decls stmts => .compound (decls.map VarDecl.id) (stmts.map id)
  | ifThen _ cond thenBranch => .ifStmt cond.id thenBranch.id none
  | ifElse _ cond thenBranch elseBranch => .ifStmt cond.id thenBranch.id (some elseBranch.id)
  | whileStmt _ cond body => .whileStmt cond.id body.id
  | forStmt _ init cond update body =>
    .forStmt (init.map Expr.id) (cond.map Expr.id) (update.map Expr.id) body.id
  | breakStmt _ => .breakStmt
  | continueStmt _ => .continueStmt
  | returnStmt _ value => .returnStmt (value.map Expr.id)
  | exprStmt _ expr => .exprStmt expr.id
  | emptyStmt _ => .emptyStmt

/-- Whether the statement is a `return`. -/
def isReturn : Stmt → Bool
  | returnStmt _ _ => true
  | _ => false

mutual

/-- A statement and all statements in it, each behind those that it holds. -/
def subtrees : Stmt → List Stmt
  | compound info decls stmts => subtreesAll stmts ++ [compound info decls stmts]
  | ifThen info cond thenBranch => subtrees thenBranch ++ [ifThen info cond thenBranch]
  | ifElse info cond thenBranch elseBranch =>
    subtrees thenBranch ++ subtrees elseBranch ++ [ifElse info cond thenBranch elseBranch]
  | whileStmt info cond body => subtrees body ++ [whileStmt info cond body]
  | forStmt info init cond update body => subtrees body ++ [forStmt info init cond update body]
  | breakStmt info => [breakStmt info]
  | continueStmt info => [continueStmt info]
  | returnStmt info value => [returnStmt info value]
  | exprStmt info expr => [exprStmt info expr]
  | emptyStmt info => [emptyStmt info]

def subtreesAll : List Stmt → List Stmt
  | [] => []
  | s :: ss => subtrees s ++ subtreesAll ss

end

end Stmt

/-- Declarations, then statements, in braces: the body of a function. -/
structure Block where
  info : StmtInfo
  decls : List VarDecl
  stmts : List Stmt
  deriving Repr, Inhabited

namespace Block

def id (b : Block) : StmtId := b.info.id

/-- A block as a statement. -/
def toStmt (b : Block) : Stmt := .compound b.info b.decls b.stmts

end Block

end VCLang
