/-
The front end as a whole: a text is parsed and, if it is a program, checked.
-/
import VCLang.Grammar.Program
import VCLang.Typing.Program
namespace VCLang

/-- What a run of the front end ends with. -/
structure Compilation where
  /-- The annotated program, if nothing was reported. -/
  program : Option Program
  /-- All that was reported, in order. -/
  errors : List Error

namespace Compilation

/-- A program stands as the result only if nothing was reported. -/
def ofProgram (p : Program) (errors : List Error) : Compilation :=
  ⟨if errors.isEmpty then some p else none, errors⟩

def succeeded (c : Compilation) : Bool := c.errors.isEmpty

theorem isSome_ofProgram (p : Program) (errors : List Error) :
    (ofProgram p errors).program.isSome = errors.isEmpty := by
  cases errors <;> rfl

end Compilation

/-- Parses a text and leaves it at that. -/
def parseOnly (source : String) : Compilation :=
  let parsed := parse source
  match parsed.result with
  | .ok p => .ofProgram p parsed.errors
  | .error _ => ⟨none, parsed.errors⟩

/-- Parses and checks a text. A text with a syntax error is not checked; one with wrong characters is. -/
def compile (options : Typing.Options) (source : String) : Compilation :=
  let parsed := parse source
  match parsed.result with
  | .ok p =>
    let checked := check options p
    .ofProgram checked.1 (parsed.errors ++ checked.2)
  | .error _ => ⟨none, parsed.errors⟩

end VCLang
