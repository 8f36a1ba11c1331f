/-
The nodes of a program in the flat form: expressions, statements and declarations that name each other by
number. Each kind of node lists its children, and can have one of its expressions replaced.
-/
import VCLang.Text.Position
import VCLang.Ty
namespace VCLang

/-! ## Names of nodes -/

/-- The number of an expression. -/
structure ExprId where
  index : Nat
  deriving DecidableEq, Repr, Inhabited

/-- The number of a statement. -/
structure StmtId where
  index : Nat
  deriving DecidableEq, Repr, Inhabited

/-- The number of a declaration. -/
structure DeclId where
  index : Nat
  deriving DecidableEq, Repr, Inhabited

/-- Any node: the whole program, or a numbered one. -/
inductive NodeId where
  | program
  | decl (id : DeclId)
  | stmt (id : StmtId)
  | expr (id : ExprId)
  deriving DecidableEq, Repr, Inhabited

/-- An occurrence of a name, and the declaration it is bound to once that is known. -/
structure Ident where
  spelling : String
  span : Span
  decl : Option DeclId
  deriving DecidableEq, Repr, Inhabited

/-- An occurrence of a name that is bound to nothing yet. -/
def Ident.unbound (spelling : String) (span : Span) : Ident := ⟨spelling, span, none⟩

/-- An operator. Once the types of its operands are known its spelling begins with a tag. -/
structure Operator where
  spelling : String
  span : Span
  deriving DecidableEq, Repr, Inhabited

/-- A literal by its class, with its spelling. -/
inductive Literal where
  | int (spelling : String)
  | float (spelling : String)
  | boolean (spelling : String)
  | string (spelling : String)
  deriving DecidableEq, Repr, Inhabited

/-! ## Expressions -/

inductive ExprKind where
  | binary (op : Operator) (left right : ExprId)
  | unary (op : Operator) (operand : ExprId)
  | assign (target value : ExprId)
  | var (ident : Ident)
  | arrayAccess (ident : Ident) (index : ExprId)
  | call (ident : Ident) (args : List ExprId)
  /-- A list of initial values in braces. -/
  | initList (elements : List ExprId)
  | literal (value : Literal)
  /-- A conversion, where an `int` stands and a `float` is wanted. -/
  | intToFloat (operand : ExprId)
  deriving DecidableEq, Repr, Inhabited

namespace ExprKind

/-- The expressions a node is made of, from left to right. -/
def children : ExprKind → List ExprId
  | binary _ left right => [left, right]
  | unary _ operand => [operand]
  | assign target value => [target, value]
  | var _ => []
  | arrayAccess _ index => [index]
  | call _ args => args
  | initList elements => elements
  | literal _ => []
  | intToFloat operand => [operand]

/-- Puts another expression into the first place that holds a given one. -/
def replaceChild (old new : ExprId) : ExprKind → ExprKind
  | binary op left right =>
    if left = old then binary op new right
    else if right = old then binary op left new
    else binary op left right
  | unary op operand => unary op (if operand = old then new else operand)
  | assign target value =>
    if target = old then assign new value
    else if value = old then assign target new
    else assign target value
  | var ident => var ident
  | arrayAccess ident index => arrayAccess ident (if index = old then new else index)
  | call ident args => call ident (args.replace old new)
  | initList elements => initList (elements.replace old new)
  | literal value => literal value
  | intToFloat operand => intToFloat (if operand = old then new else operand)

/-- Whether the expression can stand to the left of `=`. -/
def isLvalue : ExprKind → Bool
  | var _ | arrayAccess _ _ => true
  | _ => false

/-- Whether the expression is the word `true`. -/
def isTrueLiteral : ExprKind → Bool
  | literal (.boolean spelling) => spelling = "true"
  | _ => false

/-- Replacing a child replaces its first occurrence in the list of children. -/
theorem children_replaceChild (old new : ExprId) (k : ExprKind) :
    (k.replaceChild old new).children = k.children.replace old new := by
  have ne {e : ExprId} (h : e ≠ old) : (old == e) = false := beq_false_of_ne fun h' => h h'.symm
  have one (e : ExprId) : [e].replace old new = [if e = old then new else e] := by
    by_cases h : e = old
    · simp [h]
    · simp [List.replace_cons, ne h, h]
  have two (e f : ExprId) : [e, f].replace old new =
      if e = old then [new, f] else if f = old then [e, new] else [e, f] := by
    by_cases h : e = old
    · simp [h]
    · rw [List.replace_cons, ne h, one]
      by_cases h' : f = old <;> simp [h, h']
  cases k with
  | binary op left right =>
    by_cases h : left = old <;> by_cases h' : right = old <;> simp [replaceChild, children, two, h, h']
  | assign target value =>
    by_cases h : target = old <;> by_cases h' : value = old <;> simp [replaceChild, children, two, h, h']
  | unary op operand => exact (one operand).symm
  | arrayAccess ident index => exact (one index).symm
  | intToFloat operand => exact (one operand).symm
  | var ident => rfl
  | call ident args => rfl
  | initList elements => rfl
  | literal value => rfl

end ExprKind

/-- An expression: what it is, where it stands, what it is part of, and its type once it is checked. -/
structure ExprNode where
  kind : ExprKind
  span : Span
  parent : Option NodeId
  ty : Option Ty
  deriving DecidableEq, Repr, Inhabited

/-- The type of a checked expression; `error` for one that no check has reached. -/
def ExprNode.type (n : ExprNode) : Ty := n.ty.getD .error

/-! ## Statements -/

inductive StmtKind where
  /-- Declarations, then statements, in braces. -/
  | compound (decls : List DeclId) (stmts : List StmtId)
  | ifStmt (cond : ExprId) (thenBranch : StmtId) (elseBranch : Option StmtId)
  | whileStmt (cond : ExprId) (body : StmtId)
  /-- A loop; an omitted condition is filled in with `true` by the check. -/
  | forStmt (init cond update : Option ExprId) (body : StmtId)
  | breakStmt
  | continueStmt
  | returnStmt (value : Option ExprId)
  | exprStmt (expr : ExprId)
  | emptyStmt
  deriving DecidableEq, Repr, Inhabited

namespace StmtKind

/-- The nodes a statement is made of, in order. -/
def children : StmtKind → List NodeId
  | compound decls stmts => decls.map .decl ++ stmts.map .stmt
  | ifStmt cond thenBranch elseBranch => .expr cond :: .stmt thenBranch :: elseBranch.toList.map .stmt
  | whileStmt cond body => [.expr cond, .stmt body]
  | forStmt init cond update body =>
    (init.toList ++ cond.toList ++ update.toList).map .expr ++ [.stmt body]
  | returnStmt value => value.toList.map .expr
  | exprStmt expr => [.expr expr]
  | breakStmt | continueStmt | emptyStmt => []

/-- The expressions directly under a statement, in order. -/
def exprs : StmtKind → List ExprId
  | ifStmt cond _ _ => [cond]
  | whileStmt cond _ => [cond]
  | forStmt init cond update _ => init.toList ++ cond.toList ++ update.toList
  | returnStmt value => value.toList
  | exprStmt expr => [expr]
  | compound _ _ | breakStmt | continueStmt | emptyStmt => []

/-- Puts another expression into the first place that holds a given one. -/
def replaceExpr (old new : ExprId) : StmtKind → StmtKind
  | ifStmt cond thenBranch elseBranch => ifStmt (if cond = old then new else cond) thenBranch elseBranch
  | whileStmt cond body => whileStmt (if cond = old then new else cond) body
  | forStmt init cond update body =>
    if init = some old then forStmt (some new) cond update body
    else if cond = some old then forStmt init (some new) update body
    else if update = some old then forStmt init cond (some new) body
    else forStmt init cond update body
  | returnStmt value => returnStmt (if value = some old then some new else value)
  | exprStmt expr => exprStmt (if expr = old then new else expr)
  | k => k

/-- The name of the kind of statement. -/
def name : StmtKind → String
  | compound _ _ => "Compound"
  | ifStmt _ _ _ => "If"
  | whileStmt _ _ => "While"
  | forStmt _ _ _ _ => "For"
  | breakStmt => "Break"
  | continueStmt => "Continue"
  | returnStmt _ => "Return"
  | exprStmt _ => "Expr"
  | emptyStmt => "Empty"

/-- The expressions directly under a statement are its children that are expressions. -/
theorem mem_exprs_iff {k : StmtKind} {e : ExprId} : e ∈ k.exprs ↔ NodeId.expr e ∈ k.children := by
  cases k <;> simp [exprs, children]

end StmtKind

structure StmtNode where
  kind : StmtKind
  span : Span
  parent : Option NodeId
  deriving DecidableEq, Repr, Inhabited

/-! ## Declarations -/

inductive DeclKind where
  /-- A function. The predeclared ones have no body; `hasReturn` says that every path through the body
  ends in a `return`. -/
  | func (params : List DeclId) (body : Option StmtId) (hasReturn : Bool)
  | globalVar (init : Option ExprId)
  | localVar (init : Option ExprId)
  | param
  deriving DecidableEq, Repr, Inhabited

namespace DeclKind

/-- The nodes a declaration is made of, in order. -/
def children : DeclKind → List NodeId
  | func params body _ => params.map .decl ++ body.toList.map .stmt
  | globalVar init => init.toList.map .expr
  | localVar init => init.toList.map .expr
  | param => []

/-- The initial value of a variable. -/
def init? : DeclKind → Option ExprId
  | globalVar init => init
  | localVar init => init
  | _ => none

/-- Puts another expression in place of the initial value, if that is the given one. -/
def replaceInit (old new : ExprId) : DeclKind → DeclKind
  | globalVar init => globalVar (if init = some old then some new else init)
  | localVar init => localVar (if init = some old then some new else init)
  | k => k

def isFunction : DeclKind → Bool
  | func _ _ _ => true
  | _ => false

/-- The parameters of a function; other declarations have none. -/
def params : DeclKind → List DeclId
  | func params _ _ => params
  | _ => []

theorem init?_eq_some_iff {k : DeclKind} {e : ExprId} : k.init? = some e ↔ NodeId.expr e ∈ k.children := by
  cases k <;> simp [init?, children]

end DeclKind

/-- A declaration; `ty` is the declared type, for a function its return type. -/
structure DeclNode where
  kind : DeclKind
  ident : Ident
  ty : Ty
  span : Span
  parent : Option NodeId
  deriving DecidableEq, Repr, Inhabited

end VCLang
