/-
The check of a program in place. A check writes what it finds into the flat form as it walks over the program: first
the library functions, then at each node what its name is bound to, its operator with a tag, its type, the conversions
that are put around expressions and the conditions that are put into loops. What it writes is read off the trees before
and behind the check, in the order in which the walk comes by.
-/
import VCLang.Library
namespace VCLang

/-! ## Edits -/

/-- What a check writes into a flat form. -/
inductive Edit where
  /-- Adds a library function. -/
  | install (f : Library.Entry)
  /-- Binds the name that an expression uses. -/
  | bind (id : ExprId) (decl : DeclId)
  /-- Spells the operator of an expression anew. -/
  | respell (id : ExprId) (spelling : String)
  | setType (id : ExprId) (ty : Ty)
  /-- Puts an expression into a conversion. -/
  | wrap (operand : ExprId)
  /-- Puts `true` in for the omitted condition of a loop. -/
  | fill (loop : StmtId)
  /-- Gives an array its size. -/
  | resize (id : DeclId) (ty : Ty)
  | setReturns (id : DeclId) (hasReturn : Bool)
  deriving DecidableEq, Repr

/-- The same expression with its name bound. -/
def ExprKind.bindTo (d : DeclId) : ExprKind → ExprKind
  | var ident => var (ident.bindTo d)
  | arrayAccess ident index => arrayAccess (ident.bindTo d) index
  | call ident args => call (ident.bindTo d) args
  | k => k

/-- The same expression with its operator spelt anew. -/
def ExprKind.respell (spelling : String) : ExprKind → ExprKind
  | binary op left right => binary { op with spelling } left right
  | unary op operand => unary { op with spelling } operand
  | k => k

/-- The same loop with a condition. -/
def StmtKind.fillCondition (cond : ExprId) : StmtKind → StmtKind
  | forStmt init _ update body => forStmt init (some cond) update body
  | k => k

def DeclKind.setReturns (hasReturn : Bool) : DeclKind → DeclKind
  | func params body _ => func params body hasReturn
  | k => k

namespace Arena

def modifyExpr (a : Arena) (id : ExprId) (f : ExprNode → ExprNode) : Arena :=
  { a with exprs := a.exprs.modify id.index f }

def modifyDecl (a : Arena) (id : DeclId) (f : DeclNode → DeclNode) : Arena :=
  { a with decls := a.decls.modify id.index f }

/-- Adds a literal `true` with the span of a loop, as a part of the loop, and makes it the condition. -/
def fillCondition (a : Arena) (loop : StmtId) : Arena :=
  let span := ((a.stmt? loop).map (·.span)).getD .dummy
  let (cond, a) := a.pushExpr (.literal (.boolean "true")) span
  let a := setParent (.stmt loop) a (.expr cond)
  { a with stmts := a.stmts.modify loop.index fun n => { n with kind := n.kind.fillCondition cond } }

/-- Adds parameters named by their places, from the place `i` on. -/
def installParams (a : Arena) (i : Nat) : List Ty → List DeclId × Arena
  | [] => ([], a)
  | ty :: tys =>
    let (p, a) := a.pushDecl .param (.unbound s!"i{i}" .dummy) ty .dummy
    let (ps, a) := a.installParams (i + 1) tys
    (p :: ps, a)

/-- Adds a library function, behind its parameters. -/
def install (a : Arena) (f : Library.Entry) : Arena :=
  let (params, a) := a.installParams 0 f.params
  (a.pushDecl (.func params none false) (.unbound f.name .dummy) f.ret .dummy).2

end Arena

namespace Edit

/-- A flat form after an edit. -/
def apply (a : Arena) : Edit → Arena
  | install f => a.install f
  | bind id d => a.modifyExpr id fun n => { n with kind := n.kind.bindTo d }
  | respell id spelling => a.modifyExpr id fun n => { n with kind := n.kind.respell spelling }
  | setType id ty => a.setType id ty
  | wrap operand => (a.wrapIntToFloat operand).2
  | fill loop => a.fillCondition loop
  | resize id ty => a.modifyDecl id fun n => { n with ty }
  | setReturns id hasReturn => a.modifyDecl id fun n => { n with kind := n.kind.setReturns hasReturn }

/-- A flat form after some edits. -/
def applyAll (a : Arena) (es : List Edit) : Arena := es.foldl apply a

end Edit

/-! ## The edits of a check -/

/-- The binding of a name at an expression, if there is one. -/
def Ident.bindings (id : ExprId) (i : Ident) : List Edit := i.decl.toList.map (.bind id)

/-- A new spelling of the operator of an expression, if it has got one. -/
def Operator.respellings (id : ExprId) (op op' : Operator) : List Edit :=
  if op'.spelling = op.spelling then [] else [.respell id op'.spelling]

/-- The type that an expression has got. -/
def ExprInfo.typings (i : ExprInfo) : List Edit := i.ty.toList.map (.setType i.id)

namespace Expr

def isConversion : Expr → Bool
  | intToFloat _ _ => true
  | _ => false

/-- What an expression has become, without a conversion that was put around it. -/
def core (e : Expr) : Expr → Expr
  | intToFloat info operand => if e.isConversion then intToFloat info operand else operand
  | e' => e'

/-- The conversion that was put around an expression, if there is one. -/
def wraps (e e' : Expr) : List Edit := if e'.isConversion && !e.isConversion then [.wrap e.id] else []

mutual

/-- The edits that make one expression another. Both operands of an operator are visited before one is converted. -/
def edits : Expr → Expr → List Edit
  | binary info op left right, binary info' op' left' right' =>
    edits left (left.core left') ++ edits right (right.core right') ++ left.wraps left' ++ right.wraps right' ++
      op.respellings info.id op' ++ info'.typings
  | unary info op operand, unary info' op' operand' =>
    edits operand operand' ++ op.respellings info.id op' ++ info'.typings
  | assign _ target value, assign info' target' value' =>
    edits target target' ++ edits value (value.core value') ++ value.wraps value' ++ info'.typings
  | var info _, var info' ident' => ident'.bindings info.id ++ info'.typings
  | arrayAccess info _ index, arrayAccess info' ident' index' =>
    ident'.bindings info.id ++ edits index index' ++ info'.typings
  | call info _ args, call info' ident' args' => ident'.bindings info.id ++ editsAll args args' ++ info'.typings
  | initList _ elements, initList info' elements' => editsAll elements elements' ++ info'.typings
  | literal _ _, literal info' _ => info'.typings
  | intToFloat _ operand, intToFloat info' operand' => edits operand operand' ++ info'.typings
  | _, _ => []

/-- The edits of expressions one after another, each of which is converted before the next is visited. -/
def editsAll : List Expr → List Expr → List Edit
  | e :: es, e' :: es' => edits e (e.core e') ++ e.wraps e' ++ editsAll es es'
  | _, _ => []

end

/-- The edits of an expression that may be absent. -/
def editsOption : Option Expr → Option Expr → List Edit
  | some e, some e' => e.edits (e.core e') ++ e.wraps e'
  | _, _ => []

end Expr

def VarDecl.edits (d d' : VarDecl) : List Edit :=
  Expr.editsOption d.init d'.init ++ if d'.ty = d.ty then [] else [.resize d.id d'.ty]

namespace Stmt

/-- The edits of the condition of a `for` loop, which is put in where it is omitted. -/
def editsCondition (info : StmtInfo) : Option Expr → Option Expr → List Edit
  | none, some cond' => .fill info.id :: (Expr.literal ⟨cond'.id, info.span, none⟩ (.boolean "true")).edits cond'
  | some cond, some cond' => cond.edits cond'
  | _, none => []

mutual

def edits : Stmt → Stmt → List Edit
  | compound _ decls stmts, compound _ decls' stmts' =>
    (List.zipWith VarDecl.edits decls decls').flatten ++ editsAll stmts stmts'
  | ifThen _ cond thenBranch, ifThen _ cond' then' => cond.edits cond' ++ edits thenBranch then'
  | ifElse _ cond thenBranch elseBranch, ifElse _ cond' then' else' =>
    cond.edits cond' ++ edits thenBranch then' ++ edits elseBranch else'
  | whileStmt _ cond body, whileStmt _ cond' body' => cond.edits cond' ++ edits body body'
  | forStmt info init cond update body, forStmt _ init' cond' update' body' =>
    Expr.editsOption init init' ++ editsCondition info cond cond' ++ Expr.editsOption update update' ++
      edits body body'
  | returnStmt _ value, returnStmt _ value' => Expr.editsOption value value'
  | exprStmt _ expr, exprStmt _ expr' => expr.edits expr'
  | _, _ => []

def editsAll : List Stmt → List Stmt → List Edit
  | s :: ss, s' :: ss' => edits s s' ++ editsAll ss ss'
  | _, _ => []

end

end Stmt

def Function.edits (f f' : Function) : List Edit :=
  f.body.toStmt.edits f'.body.toStmt ++ [.setReturns f.id f'.hasReturn]

def TopDecl.edits : TopDecl → TopDecl → List Edit
  | func f, func f' => f.edits f'
  | var d, var d' => d.edits d'
  | _, _ => []

/-- What a check writes that makes one program another. -/
def Program.edits (p p' : Program) : List Edit :=
  Library.entries.map .install ++ (List.zipWith TopDecl.edits p.decls p'.decls).flatten

end VCLang
