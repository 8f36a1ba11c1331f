/-
The functions that every program can call without declaring them.
-/
import VCLang.Tree.Layout
import VCLang.Typing.Binding
namespace VCLang.Library

/-- The name of a function, the type it returns and the types of its parameters. -/
structure Entry where
  name : String
  ret : Ty
  params : List Ty
  deriving DecidableEq, Repr

/-- The predeclared functions. -/
def entries : List Entry :=
  [⟨"getInt", .int, []⟩,
    ⟨"putInt", .void, [.int]⟩,
    ⟨"putIntLn", .void, [.int]⟩,
    ⟨"getFloat", .float, []⟩,
    ⟨"putFloat", .void, [.float]⟩,
    ⟨"putFloatLn", .void, [.float]⟩,
    ⟨"putBool", .void, [.boolean]⟩,
    ⟨"putBoolLn", .void, [.boolean]⟩,
    ⟨"putString", .void, [.string]⟩,
    ⟨"putStringLn", .void, [.string]⟩,
    ⟨"putLn", .void, []⟩]

/-- The parameters of a predeclared function, numbered from `first` and named by their places. -/
def params (first : Nat) (types : List Ty) : List Param :=
  types.mapIdx fun i ty => ⟨⟨first + i⟩, .unbound s!"i{i}" .dummy, ty, .dummy⟩

/-- Numbers functions from `first` on, each after its parameters. -/
def number : Nat → List Entry → List Prototype
  | _, [] => []
  | first, e :: es =>
    let n := e.params.length
    ⟨⟨first + n⟩, .unbound e.name .dummy, e.ret, .dummy, params first e.params⟩ :: number (first + n + 1) es

/-- Binds the names of functions, one after another. -/
def bindAll (env : Env) (fs : List Prototype) : Env :=
  fs.foldl (fun env f => env.insert f.ident.spelling f.binding) env

/-- The predeclared functions as they are added to a program: numbered after its declarations. -/
def prototypesFor (p : Program) : List Prototype := number p.declCount entries

/-- Adds the predeclared functions to a program. -/
def addTo (p : Program) : Program := { p with predeclared := p.predeclared ++ prototypesFor p }

end VCLang.Library
