/-
Tokens, types and programs in the flat form as JSON values. The fields stand in the order in which they
are printed.
-/
import VCLang.Arena.Basic
import VCLang.Json.Basic
import VCLang.Token.Basic
namespace VCLang

open Json

/-! ## Places, tokens and types -/

def Position.toJson (p : Position) : Json := obj [("line", num p.line), ("column", num p.column)]

def Span.toJson (s : Span) : Json := obj [("start", s.start.toJson), ("end", s.stop.toJson)]

def Token.toJson (t : Token) : Json :=
  obj [("kind", str t.kind.name), ("spelling", str t.spelling), ("span", t.span.toJson)]

def Diagnostic.toJson (d : Diagnostic) : Json :=
  obj [("message", str d.message), ("position", d.position.toJson)]

def Ty.toJson : Ty → Json
  | .boolean => str "Boolean"
  | .int => str "Int"
  | .float => str "Float"
  | .string => str "String"
  | .void => str "Void"
  | .array element size => tagged "Array" (obj [("element", element.toJson), ("size", ofOption num size)])
  | .error => str "Error"

/-! ## Nodes -/

def ExprId.toJson (id : ExprId) : Json := num id.index

def StmtId.toJson (id : StmtId) : Json := num id.index

def DeclId.toJson (id : DeclId) : Json := num id.index

def NodeId.toJson : NodeId → Json
  | .program => str "Program"
  | .decl id => tagged "Decl" id.toJson
  | .stmt id => tagged "Stmt" id.toJson
  | .expr id => tagged "Expr" id.toJson

def Ident.toJson (i : Ident) : Json :=
  obj [("spelling", str i.spelling), ("span", i.span.toJson), ("decl", ofOption DeclId.toJson i.decl)]

def Operator.toJson (op : Operator) : Json := obj [("spelling", str op.spelling), ("span", op.span.toJson)]

def Literal.toJson : Literal → Json
  | .int s => tagged "IntLiteral" (str s)
  | .float s => tagged "FloatLiteral" (str s)
  | .boolean s => tagged "BooleanLiteral" (str s)
  | .string s => tagged "StringLiteral" (str s)

def ExprKind.toJson : ExprKind → Json
  | .binary op left right =>
    tagged "Binary" (obj [("op", op.toJson), ("left", left.toJson), ("right", right.toJson)])
  | .unary op operand => tagged "Unary" (obj [("op", op.toJson), ("operand", operand.toJson)])
  | .assign target value => tagged "Assign" (obj [("target", target.toJson), ("value", value.toJson)])
  | .var ident => tagged "Var" (obj [("ident", ident.toJson)])
  | .arrayAccess ident index =>
    tagged "ArrayAccess" (obj [("ident", ident.toJson), ("index", index.toJson)])
  | .call ident args => tagged "Call" (obj [("ident", ident.toJson), ("args", ofList ExprId.toJson args)])
  | .initList elements => tagged "InitList" (obj [("elements", ofList ExprId.toJson elements)])
  | .literal value => value.toJson
  | .intToFloat operand => tagged "IntToFloat" (obj [("operand", operand.toJson)])

def ExprNode.toJson (n : ExprNode) : Json :=
  obj [("kind", n.kind.toJson), ("span", n.span.toJson), ("parent", ofOption NodeId.toJson n.parent),
    ("resolved_type", ofOption Ty.toJson n.ty)]

def StmtKind.toJson : StmtKind → Json
  | .compound decls stmts =>
    tagged "Compound" (obj [("decls", ofList DeclId.toJson decls), ("stmts", ofList StmtId.toJson stmts)])
  | .ifStmt cond thenBranch elseBranch =>
    tagged "If" (obj [("cond", cond.toJson), ("then_branch", thenBranch.toJson),
      ("else_branch", ofOption StmtId.toJson elseBranch)])
  | .whileStmt cond body => tagged "While" (obj [("cond", cond.toJson), ("body", body.toJson)])
  | .forStmt init cond update body =>
    tagged "For" (obj [("init", ofOption ExprId.toJson init), ("cond", ofOption ExprId.toJson cond),
      ("update", ofOption ExprId.toJson update), ("body", body.toJson)])
  | .returnStmt value => tagged "Return" (obj [("value", ofOption ExprId.toJson value)])
  | .exprStmt expr => tagged "Expr" (obj [("expr", expr.toJson)])
  | .breakStmt => str "Break"
  | .continueStmt => str "Continue"
  | .emptyStmt => str "Empty"

def StmtNode.toJson (n : StmtNode) : Json :=
  obj [("kind", n.kind.toJson), ("span", n.span.toJson), ("parent", ofOption NodeId.toJson n.parent)]

def DeclKind.toJson : DeclKind → Json
  | .func params body hasReturn =>
    tagged "Func" (obj [("params", ofList DeclId.toJson params), ("body", ofOption StmtId.toJson body),
      ("has_return", bool hasReturn)])
  | .globalVar init => tagged "GlobalVar" (obj [("init", ofOption ExprId.toJson init)])
  | .localVar init => tagged "LocalVar" (obj [("init", ofOption ExprId.toJson init)])
  | .param => str "Param"

def DeclNode.toJson (n : DeclNode) : Json :=
  obj [("kind", n.kind.toJson), ("ident", n.ident.toJson), ("ty", n.ty.toJson), ("span", n.span.toJson),
    ("parent", ofOption NodeId.toJson n.parent)]

def Arena.toJson (a : Arena) : Json :=
  obj [("exprs", ofList ExprNode.toJson a.exprs.toList), ("stmts", ofList StmtNode.toJson a.stmts.toList),
    ("decls", ofList DeclNode.toJson a.decls.toList), ("program", ofList DeclId.toJson a.program),
    ("span", a.span.toJson)]

end VCLang
