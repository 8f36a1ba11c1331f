/-
Functions and whole programs as trees.
-/
import VCLang.Tree.Stmt
namespace VCLang

/-- A parameter of a function. -/
structure Param where
  id : DeclId
  ident : Ident
  ty : Ty
  span : Span
  deriving DecidableEq, Repr, Inhabited

/-- A function without its body; `ty` is the type it returns. -/
structure Prototype where
  id : DeclId
  ident : Ident
  ty : Ty
  span : Span
  params : List Param
  deriving DecidableEq, Repr, Inhabited

/-- A function of the program. `hasReturn` is set by the check: every path through the body ends in a
`return`. -/
structure Function extends Prototype where
  body : Block
  hasReturn : Bool
  deriving Repr, Inhabited

/-- A declaration outside all functions. -/
inductive TopDecl where
  | func (f : Function)
  | var (d : VarDecl)
  deriving Repr, Inhabited

def TopDecl.id : TopDecl → DeclId
  | func f => f.id
  | var d => d.id

/-- A program: its declarations in source order, and the predeclared functions that checks have added. -/
structure Program where
  decls : List TopDecl
  span : Span
  predeclared : List Prototype
  deriving Repr, Inhabited

end VCLang
