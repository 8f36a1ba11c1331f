/-
Checking functions and whole programs.
-/
import VCLang.Library
import VCLang.Typing.Statement
namespace VCLang.Typing

/-- Checks a parameter. -/
def checkParam (p : Param) : Check Checker Unit := do
  declare p.ident p.binding
  Check.reportOption (voidFault? p.ident.spelling p.ty) p.ident.span

def checkParams : List Param → Check Checker Unit
  | [] => return
  | p :: ps => do
    checkParam p
    checkParams ps

/-- Checks the body of a function, which has its scope in common with the parameters. -/
def checkBody (options : Options) (b : Block) : Check Checker Block := do
  let decls ← checkVarDecls b.decls
  let stmts ← checkStmts options b.stmts
  return { b with decls, stmts }

/-- The fault of a function whose end can be reached although it has a result. -/
def missingReturn? (options : Options) (ret : Ty) (hasReturn : Bool) : Option Fault :=
  if options.reportMissingReturn && !ret.isVoid && !hasReturn then some .missingReturn else none

/-- Checks a function. It is in scope from its own parameters on. -/
def checkFunction (options : Options) (f : Function) : Check Checker Function := do
  declare f.ident f.binding
  openScope
  let enclosing := (← Check.get).function
  Check.modify fun k => { k with function := some f.toPrototype }
  checkParams f.params
  let body ← checkBody options f.body
  let hasReturn := body.toStmt.alwaysReturns
  Check.reportOption (missingReturn? options f.ty hasReturn) f.span
  Check.modify fun k => { k with function := enclosing }
  closeScope
  return { f with body, hasReturn }

def checkTopDecl (options : Options) : TopDecl → Check Checker TopDecl
  | .func f => .func <$> checkFunction options f
  | .var d => .var <$> checkVarDecl d

def checkTopDecls (options : Options) : List TopDecl → Check Checker (List TopDecl)
  | [] => return []
  | d :: ds => do
    let d ← checkTopDecl options d
    let ds ← checkTopDecls options ds
    return d :: ds

/-- The fault of a program without a function `main` that returns an `int`. -/
def mainFault? (env : Env) : Option Fault :=
  match (env.retrieve "main").map Binding.signature with
  | some (.func ret _) => if ret.isInt then none else some .mainNotInt
  | _ => some .mainMissing

/-- Checks the declarations of a program, and that it can be run. -/
def checkDecls (options : Options) (p : Program) : Check Checker (List TopDecl) := do
  let decls ← checkTopDecls options p.decls
  Check.reportOption (mainFault? (← Check.get).env) p.span
  return decls

/-- What is known before the first declaration of a program: the predeclared functions. -/
def Checker.initial (p : Program) : Checker where
  env := Library.bindAll .empty (Library.prototypesFor p)
  loopDepth := 0
  function := none
  nextExpr := p.exprCount

end VCLang.Typing

namespace VCLang

/-- Checks a program: the annotated program, to which the predeclared functions are added, and the errors
in order. What is written into the flat form on the way is `Program.edits`. -/
def check (options : Typing.Options) (p : Program) : Program × List Error :=
  let o := Typing.checkDecls options p (.initial p)
  ({ Library.addTo p with decls := o.value }, o.errors)

end VCLang
