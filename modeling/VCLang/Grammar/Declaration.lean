/-
Types, declarators and the declarations of variables and parameters.
-/
import VCLang.Grammar.Expression
namespace VCLang.Grammar

open Parse

/-- The type that a token names. -/
def baseType? : TokenKind → Option Ty
  | .kwVoid => some .void
  | .kwBoolean => some .boolean
  | .kwInt => some .int
  | .kwFloat => some .float
  | _ => none

theorem baseType?_isSome (k : TokenKind) : (baseType? k).isSome = k.isType := by cases k <;> rfl

/-- The name of a type: `void`, `boolean`, `int` or `float`. -/
def typeName : Parse Ty := do
  match baseType? (← kind) with
  | some t =>
    let _ ← advance
    return t
  | none => fail .typeExpected

/-- The largest size of an array. -/
def maxArraySize : Nat := 18446744073709551615

/-- The size in a declarator, if it is written. -/
def arraySize : Parse (Option Nat) := do
  if (← kind) = .intLiteral then
    let t ← current
    match boundedDecimal? maxArraySize t.spelling.toList with
    | some n =>
      let _ ← advance
      return some n
    | none => fail (.invalidArraySize t.spelling)
  else return none

/-- What may follow a declared name: brackets with an optional size, which make an array of the type. -/
def declaratorSuffix (base : Ty) : Parse Ty := do
  if (← kind) = .lBracket then
    let _ ← advance
    let size ← arraySize
    let _ ← expect .rBracket
    return .array base size
  else return base

/-- An initial value: an expression, or one or more of them in braces. -/
def initialiser (d : Dispatch) : Parse Expr := do
  if (← kind) = .lCurly then
    let t ← advance
    let elements ← commaList (expression d .lowest)
    let _ ← expect .rCurly
    newExpr (.initList · elements) (← spanFrom t.span.start)
  else expression d .lowest

/-- The rest of the declaration of one variable after its name. -/
def initDeclarator (d : Dispatch) (start : Position) (base : Ty) (ident : Ident) (isGlobal : Bool) :
    Parse VarDecl := do
  let ty ← declaratorSuffix base
  let init ← if (← kind) = .eq then (do let _ ← advance; some <$> initialiser d) else pure none
  let span ← spanFrom start
  let decl : VarDecl := ⟨⟨0⟩, ident, ty, span, isGlobal, init⟩
  let id ← newDecl decl.kind ident ty span
  return { decl with id }

/-- The rest of a list of variables of one type after the first name. -/
def varDecls (d : Dispatch) (start : Position) (base : Ty) (first : Ident) (isGlobal : Bool) :
    Parse (List VarDecl) := do
  let decl ← initDeclarator d start base first isGlobal
  let decls ← many (· = .comma) do
    let _ ← advance
    let start ← Parse.start
    let ident ← expectIdent
    initDeclarator d start base ident isGlobal
  let _ ← expect .semicolon
  return decl :: decls

/-- A parameter of a function. -/
def param : Parse Param := do
  let start ← start
  let base ← typeName
  let ident ← expectIdent
  let ty ← declaratorSuffix base
  let span ← spanFrom start
  let id ← newDecl .param ident ty span
  return ⟨id, ident, ty, span⟩

end VCLang.Grammar
