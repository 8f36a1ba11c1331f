/-
Checking expressions. The result is the same tree with every name bound, every type filled in, the
operators tagged and the conversions put in; the state is the number of the next new expression. A wrong
expression is reported and has the type `error`, and all its parts are checked nevertheless.
-/
import VCLang.Typing.Binding
import VCLang.Typing.Check
import VCLang.Typing.Rules
namespace VCLang.Typing

/-- The type of a literal. -/
def literalType : Literal → Ty
  | .int _ => .int
  | .float _ => .float
  | .boolean _ => .boolean
  | .string _ => .string

/-- The number of a new expression. -/
def freshExpr : Check Nat ExprId := fun n => ⟨⟨n⟩, n + 1, []⟩

/-- Puts an expression into a conversion. -/
def widen (e : Expr) : Check Nat Expr := do
  let id ← freshExpr
  return .intToFloat ⟨id, e.span, some .float⟩ e

/-- Puts an expression into a conversion if one is needed. -/
def widenIf (needed : Bool) (e : Expr) : Check Nat Expr := if needed then widen e else pure e

/-- A checked expression in its place: reported at the span if it does not fit, else converted if needed. -/
def settle (ruling : Ruling Bool) (span : Span) (e : Expr) : Check Nat Expr :=
  match ruling with
  | .accept needed => widenIf needed e
  | .reject f => do
    Check.report f span
    return e
  | .silent => pure e

/-- A variable by itself. A function may stand so only where it is a whole statement. -/
def checkVar (env : Env) (whole : Bool) (info : ExprInfo) (ident : Ident) : Check Nat Expr :=
  match env.retrieve ident.spelling with
  | none => do
    Check.report (.undeclared ident.spelling) info.span
    return .var (info.typed .error) ident
  | some b =>
    match b.signature with
    | .var ty => return .var (info.typed ty) (ident.bindTo b.decl)
    | .func ret _ =>
      if whole then return .var (info.typed ret) (ident.bindTo b.decl)
      else do
        Check.report (.notScalar ident.spelling) info.span
        return .var (info.typed .error) (ident.bindTo b.decl)

/-- An element of an array, whose subscript is checked. -/
def checkAccess (env : Env) (info : ExprInfo) (ident : Ident) (index : Expr) : Check Nat Expr :=
  match env.retrieve ident.spelling with
  | none => do
    Check.report (.undeclared ident.spelling) info.span
    return .arrayAccess (info.typed .error) ident index
  | some b =>
    match b.signature.element? with
    | none => do
      Check.report (.notArray ident.spelling) info.span
      return .arrayAccess (info.typed .error) (ident.bindTo b.decl) index
    | some element =>
      match subscriptFault? index.type with
      | none => return .arrayAccess (info.typed element) (ident.bindTo b.decl) index
      | some f => do
        Check.report f index.span
        return .arrayAccess (info.typed .error) (ident.bindTo b.decl) index

/-- A unary operator over a checked operand. -/
def finishUnary (info : ExprInfo) (op : Operator) (operand : Expr) : Check Nat Expr :=
  match unaryRuling op.spelling operand.type with
  | .accept (ty, tag) => return .unary (info.typed ty) (op.tagged tag) operand
  | .reject f => do
    Check.report f info.span
    return .unary (info.typed .error) op operand
  | .silent => return .unary (info.typed .error) op operand

/-- A binary operator over checked operands. -/
def finishBinary (info : ExprInfo) (op : Operator) (left right : Expr) : Check Nat Expr :=
  match binaryRuling op.spelling left.type right.type left.name right.name with
  | .accept (ty, u) => do
    let left ← widenIf u.widenLeft left
    let right ← widenIf u.widenRight right
    return .binary (info.typed ty) (op.tagged u.tag) left right
  | .reject f => do
    Check.report f info.span
    return .binary (info.typed .error) op left right
  | .silent => return .binary (info.typed .error) op left right

/-- An assignment of a checked value to a checked variable or array element. -/
def finishAssign (info : ExprInfo) (target value : Expr) : Check Nat Expr :=
  match assignRuling target.type value.type value.name with
  | .accept needed => do
    let value ← widenIf needed value
    return .assign (info.typed target.type) target value
  | .reject f => do
    Check.report f info.span
    return .assign (info.typed .error) target value
  | .silent => return .assign (info.typed .error) target value

mutual

/-- Checks an expression; `whole` says that it is a statement by itself. -/
def checkExpr (env : Env) (whole : Bool) : Expr → Check Nat Expr
  | .literal info value => return .literal (info.typed (literalType value)) value
  | .var info ident => checkVar env whole info ident
  | .arrayAccess info ident index => do
    let index ← checkExpr env false index
    checkAccess env info ident index
  | .call info ident args =>
    if ident.spelling = "main" then do
      Check.report .mainCalled info.span
      let args ← checkAll env args
      return .call (info.typed .error) ident args
    else
      match env.retrieve ident.spelling with
      | none => do
        Check.report (.undeclared ident.spelling) ident.span
        let args ← checkAll env args
        return .call (info.typed .error) ident args
      | some b =>
        match b.signature with
        | .var _ => do
          Check.report .notFunction info.span
          let args ← checkAll env args
          return .call (info.typed .error) (ident.bindTo b.decl) args
        | .func ret params => do
          let args' ← checkArgs env params args
          if args.length < params.length then Check.report .tooFewArguments info.span
          return .call (info.typed ret) (ident.bindTo b.decl) args'
  | .unary info op operand => do
    let operand ← checkExpr env false operand
    finishUnary info op operand
  | .binary info op left right => do
    let left ← checkExpr env false left
    let right ← checkExpr env false right
    finishBinary info op left right
  | .assign info target value =>
    if target.isLvalue then do
      let target ← checkExpr env false target
      let value ← checkExpr env false value
      finishAssign info target value
    else do
      Check.report .invalidLvalue info.span
      let target ← checkExpr env false target
      let value ← checkExpr env false value
      return .assign (info.typed .error) target value
  | .initList info elements => do
    let elements ← checkAll env elements
    return .initList (info.typed .error) elements
  | .intToFloat info operand => do
    let operand ← checkExpr env false operand
    return .intToFloat (info.typed .float) operand

/-- Checks expressions that nothing is asked of. -/
def checkAll (env : Env) : List Expr → Check Nat (List Expr)
  | [] => return []
  | e :: es => do
    let e ← checkExpr env false e
    let es ← checkAll env es
    return e :: es

/-- Checks arguments against the types of parameters. Of the arguments that are too many, the first is
reported. -/
def checkArgs (env : Env) : List Ty → List Expr → Check Nat (List Expr)
  | _, [] => return []
  | [], arg :: args => do
    let arg ← checkExpr env false arg
    Check.report .tooManyArguments arg.span
    let args ← checkAll env args
    return arg :: args
  | param :: params, arg :: args => do
    let arg ← checkExpr env false arg
    let arg ← settle (argumentRuling param arg.type) arg.span arg
    let args ← checkArgs env params args
    return arg :: args

end

/-- Checks the elements of an initialiser against the type of the elements of an array. -/
def checkElements (env : Env) (element : Ty) : List Expr → Check Nat (List Expr)
  | [] => return []
  | e :: es => do
    let e ← checkExpr env false e
    let e ← settle (storeRuling .wrongInitialiserElement element e.type) e.span e
    let es ← checkElements env element es
    return e :: es

end VCLang.Typing
