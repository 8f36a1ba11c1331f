/-
From trees to the flat form. A tree is listed node by node, children before the node they belong to, with
the links to parents read off the tree; the nodes are then put in place by their numbers.
-/
import VCLang.Arena.Basic
import VCLang.Tree.Program
namespace VCLang

/-- A node of the flat form with its number. -/
inductive Entry where
  | expr (id : ExprId) (node : ExprNode)
  | stmt (id : StmtId) (node : StmtNode)
  | decl (id : DeclId) (node : DeclNode)
  deriving Repr

/-! ## Listing the nodes of a tree -/

namespace Expr

/-- The flat node of the root. -/
def node (parent : NodeId) (e : Expr) : ExprNode := ⟨e.kind, e.span, some parent, e.info.ty⟩

/-- The entry of the root. -/
def entry (parent : NodeId) (e : Expr) : Entry := .expr e.id (e.node parent)

mutual

/-- The nodes of an expression, the root last. -/
def entries (parent : NodeId) : Expr → List Entry
  | binary info op left right =>
    entries (.expr info.id) left ++ entries (.expr info.id) right ++ [(binary info op left right).entry parent]
  | unary info op operand => entries (.expr info.id) operand ++ [(unary info op operand).entry parent]
  | assign info target value =>
    entries (.expr info.id) target ++ entries (.expr info.id) value ++ [(assign info target value).entry parent]
  | var info ident => [(var info ident).entry parent]
  | arrayAccess info ident index =>
    entries (.expr info.id) index ++ [(arrayAccess info ident index).entry parent]
  | call info ident args => entriesAll (.expr info.id) args ++ [(call info ident args).entry parent]
  | initList info elements => entriesAll (.expr info.id) elements ++ [(initList info elements).entry parent]
  | literal info value => [(literal info value).entry parent]
  | intToFloat info operand => entries (.expr info.id) operand ++ [(intToFloat info operand).entry parent]

/-- The nodes of several expressions under one parent. -/
def entriesAll (parent : NodeId) : List Expr → List Entry
  | [] => []
  | e :: es => entries parent e ++ entriesAll parent es

end

/-- The nodes of an expression that may be absent. -/
def entriesOption (parent : NodeId) : Option Expr → List Entry
  | none => []
  | some e => e.entries parent

end Expr

/-- The nodes of a variable, itself last. -/
def VarDecl.entries (parent : NodeId) (d : VarDecl) : List Entry :=
  Expr.entriesOption (.decl d.id) d.init ++ [.decl d.id ⟨d.kind, d.ident, d.ty, d.span, some parent⟩]

namespace Stmt

/-- The entry of the root. -/
def entry (parent : NodeId) (s : Stmt) : Entry := .stmt s.id ⟨s.kind, s.span, some parent⟩

mutual

/-- The nodes of a statement, the root last. -/
def entries (parent : NodeId) : Stmt → List Entry
  | compound info decls stmts =>
    decls.flatMap (VarDecl.entries (.stmt info.id)) ++ entriesAll (.stmt info.id) stmts ++
      [(compound info decls stmts).entry parent]
  | ifThen info cond thenBranch =>
    cond.entries (.stmt info.id) ++ entries (.stmt info.id) thenBranch ++
      [(ifThen info cond thenBranch).entry parent]
  | ifElse info cond thenBranch elseBranch =>
    cond.entries (.stmt info.id) ++ entries (.stmt info.id) thenBranch ++ entries (.stmt info.id) elseBranch ++
      [(ifElse info cond thenBranch elseBranch).entry parent]
  | whileStmt info cond body =>
    cond.entries (.stmt info.id) ++ entries (.stmt info.id) body ++ [(whileStmt info cond body).entry parent]
  | forStmt info init cond update body =>
    Expr.entriesOption (.stmt info.id) init ++ Expr.entriesOption (.stmt info.id) cond ++
      Expr.entriesOption (.stmt info.id) update ++ entries (.stmt info.id) body ++
      [(forStmt info init cond update body).entry parent]
  | breakStmt info => [(breakStmt info).entry parent]
  | continueStmt info => [(continueStmt info).entry parent]
  | returnStmt info value => Expr.entriesOption (.stmt info.id) value ++ [(returnStmt info value).entry parent]
  | exprStmt info expr => expr.entries (.stmt info.id) ++ [(exprStmt info expr).entry parent]
  | emptyStmt info => [(emptyStmt info).entry parent]

/-- The nodes of several statements under one parent. -/
def entriesAll (parent : NodeId) : List Stmt → List Entry
  | [] => []
  | s :: ss => entries parent s ++ entriesAll parent ss

end

end Stmt

/-- The node of a parameter. -/
def Param.entry (parent : NodeId) (p : Param) : Entry :=
  .decl p.id ⟨.param, p.ident, p.ty, p.span, some parent⟩

/-- The nodes of a predeclared function, which is part of nothing. -/
def Prototype.entries (f : Prototype) : List Entry :=
  f.params.map (Param.entry (.decl f.id)) ++
    [.decl f.id ⟨.func (f.params.map Param.id) none false, f.ident, f.ty, f.span, none⟩]

/-- The nodes of a function, itself last. -/
def Function.entries (f : Function) : List Entry :=
  f.params.map (Param.entry (.decl f.id)) ++ f.body.toStmt.entries (.decl f.id) ++
    [.decl f.id ⟨.func (f.params.map Param.id) (some f.body.id) f.hasReturn, f.ident, f.ty, f.span,
      some .program⟩]

/-- The statements of a declaration. -/
def TopDecl.stmts : TopDecl → List Stmt
  | func f => f.body.toStmt.subtrees
  | var _ => []

def TopDecl.entries : TopDecl → List Entry
  | func f => f.entries
  | var d => d.entries .program

/-- All nodes of a program. -/
def Program.entries (p : Program) : List Entry :=
  p.decls.flatMap TopDecl.entries ++ p.predeclared.flatMap Prototype.entries

/-! ## Putting nodes in place -/

namespace Entry

def expr? : Entry → Option (Nat × ExprNode)
  | expr id node => some (id.index, node)
  | _ => none

def stmt? : Entry → Option (Nat × StmtNode)
  | stmt id node => some (id.index, node)
  | _ => none

def decl? : Entry → Option (Nat × DeclNode)
  | decl id node => some (id.index, node)
  | _ => none

end Entry

/-- As many values as there are pairs, each at the place its number says. -/
def place {α : Type} [Inhabited α] (items : List (Nat × α)) : Array α :=
  items.foldl (fun a item => a.setIfInBounds item.1 item.2) (Array.replicate items.length default)

namespace Program

/-- How many expressions a program has. -/
def exprCount (p : Program) : Nat := (p.entries.filterMap Entry.expr?).length

/-- How many declarations a program has, the predeclared functions and all parameters included. -/
def declCount (p : Program) : Nat := (p.entries.filterMap Entry.decl?).length

/-- The statements of a program as trees, each at the place of its number. -/
def stmts (p : Program) : Array Stmt :=
  place ((p.decls.flatMap TopDecl.stmts).map fun s => (s.id.index, s))

/-- The flat form of a program. -/
def arena (p : Program) : Arena where
  exprs := place (p.entries.filterMap Entry.expr?)
  stmts := place (p.entries.filterMap Entry.stmt?)
  decls := place (p.entries.filterMap Entry.decl?)
  program := p.decls.map TopDecl.id
  span := p.span

end Program

/-- There are as many places as values. -/
theorem size_place {α : Type} [Inhabited α] (items : List (Nat × α)) : (place items).size = items.length := by
  have key : ∀ (xs : List (Nat × α)) (a : Array α),
      (xs.foldl (fun a item => a.setIfInBounds item.1 item.2) a).size = a.size := by
    intro xs
    induction xs with
    | nil => intro a; rfl
    | cons x xs ih => intro a; rw [List.foldl_cons, ih, Array.size_setIfInBounds]
  rw [place, key, Array.size_replicate]

end VCLang
