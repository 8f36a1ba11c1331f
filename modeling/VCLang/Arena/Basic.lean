/-
The flat form of a program: three growing lists of nodes with links from each node to the one it is part
of. Adding a node links its children to it; a node can be wrapped in a conversion, which takes its place.
-/
import VCLang.Arena.Node
namespace VCLang

structure Arena where
  exprs : Array ExprNode
  stmts : Array StmtNode
  decls : Array DeclNode
  /-- The top-level declarations in source order. -/
  program : List DeclId
  span : Span
  deriving DecidableEq, Repr

namespace Arena

def empty : Arena := ⟨#[], #[], #[], [], .dummy⟩

def expr? (a : Arena) (id : ExprId) : Option ExprNode := a.exprs[id.index]?

def stmt? (a : Arena) (id : StmtId) : Option StmtNode := a.stmts[id.index]?

def decl? (a : Arena) (id : DeclId) : Option DeclNode := a.decls[id.index]?

/-- The numbers of all expressions, in order. -/
def exprIds (a : Arena) : List ExprId := (List.range a.exprs.size).map .mk

/-- How many nodes there are, the program itself included. -/
def nodeCount (a : Arena) : Nat := a.exprs.size + a.stmts.size + a.decls.size + 1

/-! ## Links to parents -/

/-- What a node is part of. -/
def parentOf (a : Arena) : NodeId → Option NodeId
  | .program => none
  | .decl id => (a.decl? id).bind (·.parent)
  | .stmt id => (a.stmt? id).bind (·.parent)
  | .expr id => (a.expr? id).bind (·.parent)

/-- Makes one node part of another. -/
def setParent (parent : NodeId) (a : Arena) : NodeId → Arena
  | .program => a
  | .decl id => { a with decls := a.decls.modify id.index ({ · with parent := some parent }) }
  | .stmt id => { a with stmts := a.stmts.modify id.index ({ · with parent := some parent }) }
  | .expr id => { a with exprs := a.exprs.modify id.index ({ · with parent := some parent }) }

/-- Makes several nodes part of another. -/
def adopt (a : Arena) (parent : NodeId) (children : List NodeId) : Arena := children.foldl (setParent parent) a

/-- The first node with a property among the parents of a node, within `n` steps. -/
def ancestorWithin (a : Arena) (p : NodeId → Bool) : Nat → NodeId → Option NodeId
  | 0, _ => none
  | n + 1, node =>
    match a.parentOf node with
    | none => none
    | some parent => if p parent then some parent else ancestorWithin a p n parent

/-- The nearest node with a property that a node is properly part of. No chain of parents is longer than
there are nodes. -/
def findAncestor (a : Arena) (p : NodeId → Bool) (node : NodeId) : Option NodeId :=
  a.ancestorWithin p a.nodeCount node

/-! ## Adding nodes -/

/-- Adds an expression and makes its parts its children. -/
def pushExpr (a : Arena) (kind : ExprKind) (span : Span) : ExprId × Arena :=
  let id : ExprId := ⟨a.exprs.size⟩
  let a := a.adopt (.expr id) (kind.children.map .expr)
  (id, { a with exprs := a.exprs.push ⟨kind, span, none, none⟩ })

/-- Adds a statement and makes its parts its children. -/
def pushStmt (a : Arena) (kind : StmtKind) (span : Span) : StmtId × Arena :=
  let id : StmtId := ⟨a.stmts.size⟩
  let a := a.adopt (.stmt id) kind.children
  (id, { a with stmts := a.stmts.push ⟨kind, span, none⟩ })

/-- Adds a declaration and makes its parts its children. -/
def pushDecl (a : Arena) (kind : DeclKind) (ident : Ident) (ty : Ty) (span : Span) : DeclId × Arena :=
  let id : DeclId := ⟨a.decls.size⟩
  let a := a.adopt (.decl id) kind.children
  (id, { a with decls := a.decls.push ⟨kind, ident, ty, span, none⟩ })

/-- Fixes the top-level declarations and makes them parts of the program. -/
def setProgram (a : Arena) (decls : List DeclId) (span : Span) : Arena :=
  { a.adopt .program (decls.map .decl) with program := decls, span }

/-- Records the type of an expression. -/
def setType (a : Arena) (id : ExprId) (ty : Ty) : Arena :=
  { a with exprs := a.exprs.modify id.index ({ · with ty := some ty }) }

/-! ## Conversions -/

/-- Puts an expression in the place of another under the node that this is part of. -/
def replaceChild (a : Arena) (parent : NodeId) (old new : ExprId) : Arena :=
  match parent with
  | .program => a
  | .decl id =>
    { a with decls := a.decls.modify id.index fun n => { n with kind := n.kind.replaceInit old new } }
  | .stmt id =>
    { a with stmts := a.stmts.modify id.index fun n => { n with kind := n.kind.replaceExpr old new } }
  | .expr id =>
    { a with exprs := a.exprs.modify id.index fun n => { n with kind := n.kind.replaceChild old new } }

/-- Wraps an expression in a conversion of its span and type `float`, which takes its place. -/
def wrapIntToFloat (a : Arena) (operand : ExprId) : ExprId × Arena :=
  let parent := a.parentOf (.expr operand)
  let span := ((a.expr? operand).map (·.span)).getD .dummy
  let (wrapper, a) := a.pushExpr (.intToFloat operand) span
  let a := { a with exprs := a.exprs.modify wrapper.index ({ · with parent, ty := some .float }) }
  (wrapper, match parent with
    | none => a
    | some parent => a.replaceChild parent operand wrapper)

/-! ## Sizes -/

theorem setParent_sizes (a : Arena) (parent node : NodeId) :
    (setParent parent a node).exprs.size = a.exprs.size ∧
      (setParent parent a node).stmts.size = a.stmts.size ∧
      (setParent parent a node).decls.size = a.decls.size := by
  cases node <;> simp [setParent]

theorem adopt_sizes (a : Arena) (parent : NodeId) (children : List NodeId) :
    (a.adopt parent children).exprs.size = a.exprs.size ∧
      (a.adopt parent children).stmts.size = a.stmts.size ∧
      (a.adopt parent children).decls.size = a.decls.size := by
  induction children generalizing a with
  | nil => simp [adopt]
  | cons c cs ih =>
    obtain ⟨h1, h2, h3⟩ := ih (setParent parent a c)
    obtain ⟨g1, g2, g3⟩ := setParent_sizes a parent c
    exact ⟨h1.trans g1, h2.trans g2, h3.trans g3⟩

theorem pushExpr_size (a : Arena) (kind : ExprKind) (span : Span) :
    (a.pushExpr kind span).2.exprs.size = a.exprs.size + 1 := by
  simp [pushExpr, (adopt_sizes a _ _).1]

theorem pushStmt_size (a : Arena) (kind : StmtKind) (span : Span) :
    (a.pushStmt kind span).2.stmts.size = a.stmts.size + 1 := by
  simp [pushStmt, (adopt_sizes a _ _).2.1]

theorem pushDecl_size (a : Arena) (kind : DeclKind) (ident : Ident) (ty : Ty) (span : Span) :
    (a.pushDecl kind ident ty span).2.decls.size = a.decls.size + 1 := by
  simp [pushDecl, (adopt_sizes a _ _).2.2]

end Arena

end VCLang
