/-
Functions and whole programs, and the parse of a text.
-/
import VCLang.Grammar.Statement
namespace VCLang

namespace Grammar

open Parse

/-- The rest of a function after its name. -/
def function (d : Dispatch) (start : Position) (ty : Ty) (ident : Ident) : Parse Function := do
  let params ← parenthesised param
  let body ← block d
  let span ← spanFrom start
  let id ← newDecl (.func (params.map Param.id) (some body.id) false) ident ty span
  return { id, ident, ty, span, params, body, hasReturn := false }

/-- A function, or a list of global variables. -/
def topLevel (d : Dispatch) : Parse (List TopDecl) := do
  let start ← start
  let ty ← typeName
  let ident ← expectIdent
  if (← kind) = .lParen then
    let f ← function d start ty ident
    return [.func f]
  else
    let decls ← varDecls d start ty ident true
    return decls.map .var

/-- Declarations up to the end of the text. -/
def program (d : Dispatch) : Parse Program := do
  let start ← start
  let decls ← many (· ≠ .eof) (topLevel d)
  let last ← current
  return ⟨decls.flatten, ⟨start, last.span.stop⟩, []⟩

end Grammar

/-- The outcome of a parse: the program or the syntax error that ended it, and everything reported on the
way, that error included. -/
structure Parsed where
  result : Except Error Program
  errors : List Error

/-- Parses a text. -/
def parse (source : String) : Parsed :=
  let r := Grammar.program .standard (.ofString source)
  ⟨r.1, r.2.errors⟩

end VCLang
