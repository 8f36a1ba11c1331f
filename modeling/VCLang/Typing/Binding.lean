/-
What a name in scope stands for.
-/
import VCLang.Scope
import VCLang.Tree.Program
namespace VCLang

/-- What is known of a declared name: a variable of a type, or a function. -/
inductive Signature where
  | var (ty : Ty)
  | func (ret : Ty) (params : List Ty)
  deriving DecidableEq, Repr

/-- A declaration and what is known of it. -/
structure Binding where
  decl : DeclId
  signature : Signature
  deriving DecidableEq, Repr

/-- The scopes of a place in a program. -/
abbrev Env := Scopes Binding

def VarDecl.binding (d : VarDecl) : Binding := ⟨d.id, .var d.ty⟩

def Param.binding (p : Param) : Binding := ⟨p.id, .var p.ty⟩

def Prototype.binding (f : Prototype) : Binding := ⟨f.id, .func f.ty (f.params.map Param.ty)⟩

/-- An occurrence of a name, bound to a declaration. -/
def Ident.bindTo (i : Ident) (d : DeclId) : Ident := { i with decl := some d }

/-- The elements of an array that a name stands for. -/
def Signature.element? : Signature → Option Ty
  | var ty => ty.element?
  | func _ _ => none

end VCLang
