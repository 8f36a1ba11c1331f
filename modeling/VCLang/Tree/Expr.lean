/-
Expressions as trees. Every node has its number in the flat form, its span and, once it is checked, its
type.
-/
import VCLang.Arena.Node
namespace VCLang

/-- What every expression carries. -/
structure ExprInfo where
  id : ExprId
  span : Span
  ty : Option Ty
  deriving DecidableEq, Repr, Inhabited

/-- The same expression with its type known. -/
def ExprInfo.typed (i : ExprInfo) (t : Ty) : ExprInfo := { i with ty := some t }

inductive Expr where
  | binary (info : ExprInfo) (op : Operator) (left right : Expr)
  | unary (info : ExprInfo) (op : Operator) (operand : Expr)
  | assign (info : ExprInfo) (target value : Expr)
  | var (info : ExprInfo) (ident : Ident)
  | arrayAccess (info : ExprInfo) (ident : Ident) (index : Expr)
  | call (info : ExprInfo) (ident : Ident) (args : List Expr)
  | initList (info : ExprInfo) (elements : List Expr)
  | literal (info : ExprInfo) (value : Literal)
  | intToFloat (info : ExprInfo) (operand : Expr)
  deriving Repr, Inhabited

namespace Expr

def info : Expr → ExprInfo
  | binary info _ _ _ => info
  | unary info _ _ => info
  | assign info _ _ => info
  | var info _ => info
  | arrayAccess info _ _ => info
  | call info _ _ => info
  | initList info _ => info
  | literal info _ => info
  | intToFloat info _ => info

def id (e : Expr) : ExprId := e.info.id

def span (e : Expr) : Span := e.info.span

/-- The type of a checked expression; `error` for one that no check has reached. -/
def type (e : Expr) : Ty := e.info.ty.getD .error

/-- The flat form of the root of a tree. -/
def kind : Expr → ExprKind
  | binary _ op left right => .binary op left.id right.id
  | unary _ op operand => .unary op operand.id
  | assign _ target value => .assign target.id value.id
  | var _ ident => .var ident
  | arrayAccess _ ident index => .arrayAccess ident index.id
  | call _ ident args => .call ident (args.map id)
  | initList _ elements => .initList (elements.map id)
  | literal _ value => .literal value
  | intToFloat _ operand => .intToFloat operand.id

/-- The subexpressions directly under the root, from left to right. -/
def children : Expr → List Expr
  | binary _ _ left right => [left, right]
  | unary _ _ operand => [operand]
  | assign _ target value => [target, value]
  | var _ _ => []
  | arrayAccess _ _ index => [index]
  | call _ _ args => args
  | initList _ elements => elements
  | literal _ _ => []
  | intToFloat _ operand => [operand]

/-- Whether the expression can stand to the left of `=`. -/
def isLvalue (e : Expr) : Bool := e.kind.isLvalue

/-- Whether the expression is the word `true`. -/
def isTrueLiteral (e : Expr) : Bool := e.kind.isTrueLiteral

/-- The name of the variable or function that an expression is about; empty if it is about none. -/
def name : Expr → String
  | var _ ident => ident.spelling
  | arrayAccess _ ident _ => ident.spelling
  | call _ ident _ => ident.spelling
  | _ => ""

/-- The children of the root are the same in both forms. -/
theorem kind_children (e : Expr) : e.kind.children = e.children.map id := by cases e <;> rfl

end Expr

end VCLang
