/-
The types of the language, their printed form, and which values may be stored where.
-/
namespace VCLang

/-- A type. `error` is the type of an expression that failed to check: it is compatible with every
type, so that one mistake is reported once. -/
inductive Ty where
  | boolean
  | int
  | float
  | string
  | void
  /-- An array; the size is absent until it is written or counted from an initialiser. -/
  | array (element : Ty) (size : Option Nat)
  | error
  deriving DecidableEq, Repr, Inhabited

namespace Ty

/-- The printed form; sizes are not shown. -/
def text : Ty → String
  | boolean => "boolean"
  | int => "int"
  | float => "float"
  | string => "string"
  | void => "void"
  | array element _ => element.text ++ "[]"
  | error => "error"

def isBoolean : Ty → Bool
  | boolean => true
  | _ => false

def isInt : Ty → Bool
  | int => true
  | _ => false

def isFloat : Ty → Bool
  | float => true
  | _ => false

def isString : Ty → Bool
  | string => true
  | _ => false

def isVoid : Ty → Bool
  | void => true
  | _ => false

def isArray : Ty → Bool
  | array _ _ => true
  | _ => false

def isError : Ty → Bool
  | error => true
  | _ => false

/-- Whether arithmetic applies. -/
def isNumeric : Ty → Bool
  | int | float => true
  | _ => false

/-- The element type of an array. -/
def element? : Ty → Option Ty
  | array element _ => some element
  | _ => none

/-- The size of an array, where it is known. -/
def size? : Ty → Option Nat
  | array _ size => size
  | _ => none

/-- Whether a value of the second type may be stored where the first is declared: never a whole array,
an `int` also into a `float`, otherwise the types are the same. -/
def assignable : Ty → Ty → Bool
  | error, _ => true
  | _, error => true
  | array _ _, _ => false
  | _, array _ _ => false
  | float, int => true
  | target, source => target = source

/-- Whether storing a value of the second type where the first is declared takes a conversion. -/
def needsIntToFloat (target source : Ty) : Bool := target.isFloat && source.isInt

theorem assignable_error_left (t : Ty) : assignable error t = true := by cases t <;> rfl

theorem assignable_error_right (t : Ty) : assignable t error = true := by cases t <;> rfl

/-- A scalar may be stored into its own type. -/
theorem assignable_self {t : Ty} (h : t.isArray = false) : assignable t t = true := by
  cases t <;> simp_all [assignable, isArray]

end Ty

end VCLang
