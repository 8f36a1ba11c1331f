/-
The rules of the language as functions of types: what an operator, an assignment, an argument, a condition
or an initial value makes of the types of its parts. A part whose type is `error` was reported where it
went wrong, and no rule adds anything to that.
-/
import VCLang.Arena.Node
import VCLang.Diagnostic.Fault
namespace VCLang

/-- What a rule says: the construct is right, it is wrong, or a part of it was wrong already. -/
inductive Ruling (α : Type) where
  | accept (a : α)
  | reject (f : Fault)
  | silent
  deriving Repr

/-- The fault that a ruling reports. -/
def Ruling.fault? {α : Type} : Ruling α → Option Fault
  | reject f => some f
  | _ => none

/-! ## Operators -/

/-- What the operands of an operator are: floats, or anything else. -/
inductive OperandTag where
  | int
  | float
  deriving DecidableEq, Repr

/-- The letter that an operator is tagged with. -/
def OperandTag.text : OperandTag → String
  | int => "i"
  | float => "f"

/-- An operator with its tag in front. -/
def Operator.tagged (op : Operator) (tag : OperandTag) : Operator :=
  { op with spelling := tag.text ++ op.spelling }

/-- How two numeric operands are brought to one type: the tag, and which operand is converted. -/
structure Unified where
  tag : OperandTag
  widenLeft : Bool
  widenRight : Bool
  deriving DecidableEq, Repr

/-- Two operands of one numeric type stay as they are; an `int` beside a `float` is converted. -/
def unify (left right : Ty) : Option Unified :=
  if !left.isNumeric || !right.isNumeric then none
  else match left, right with
    | .int, .int => some ⟨.int, false, false⟩
    | .float, .float => some ⟨.float, false, false⟩
    | .int, .float => some ⟨.float, true, false⟩
    | .float, .int => some ⟨.float, false, true⟩
    | _, _ => none

/-- The groups of binary operators that follow one rule. -/
inductive OperatorClass where
  | arithmetic
  | relational
  | equality
  | logical
  deriving DecidableEq, Repr

/-- The group of an operator. A tagged operator is in none. -/
def OperatorClass.ofSpelling? (op : String) : Option OperatorClass :=
  if op = "+" ∨ op = "-" ∨ op = "*" ∨ op = "/" then some arithmetic
  else if op = "<" ∨ op = "<=" ∨ op = ">" ∨ op = ">=" then some relational
  else if op = "==" ∨ op = "!=" then some equality
  else if op = "&&" ∨ op = "||" then some logical
  else none

/-- The type of a numeric operand with a tag. -/
def OperandTag.type : OperandTag → Ty
  | int => .int
  | float => .float

/-- What an operator of a class makes of its operands: its type, and how they are brought to one type. -/
def OperatorClass.apply (c : OperatorClass) (left right : Ty) : Option (Ty × Unified) :=
  match c, left, right with
  | equality, .boolean, .boolean => some (.boolean, ⟨.int, false, false⟩)
  | logical, .boolean, .boolean => some (.boolean, ⟨.int, false, false⟩)
  | logical, _, _ => none
  | arithmetic, _, _ => (unify left right).map fun u => (u.tag.type, u)
  | relational, _, _ => (unify left right).map fun u => (.boolean, u)
  | equality, _, _ => (unify left right).map fun u => (.boolean, u)

/-- The rule of a binary operator. An array is no operand, and is named; nor is a string. -/
def binaryRuling (op : String) (left right : Ty) (leftName rightName : String) : Ruling (Ty × Unified) :=
  if left.isError || right.isError then .silent
  else if left.isArray then .reject (.notScalar leftName)
  else if right.isArray then .reject (.notScalar rightName)
  else if left.isString || right.isString then .reject (.incompatibleBinaryOperand op)
  else
    match (OperatorClass.ofSpelling? op).bind (·.apply left right) with
    | some r => .accept r
    | none => .reject (.incompatibleBinaryOperand op)

/-- The rule of a unary operator: `!` negates a boolean, a sign keeps the type of a number. -/
def unaryRuling (op : String) (operand : Ty) : Ruling (Ty × OperandTag) :=
  match operand with
  | .error => .silent
  | .boolean => if op = "!" then .accept (.boolean, .int) else .reject (.incompatibleUnaryOperand op)
  | .int => if op = "+" ∨ op = "-" then .accept (.int, .int) else .reject (.incompatibleUnaryOperand op)
  | .float => if op = "+" ∨ op = "-" then .accept (.float, .float) else .reject (.incompatibleUnaryOperand op)
  | _ => .reject (.incompatibleUnaryOperand op)

/-! ## Storing values -/

/-- The rule of a value that is stored where a type is declared: whether it is converted. -/
def storeRuling (fault : Fault) (target value : Ty) : Ruling Bool :=
  if target.assignable value then .accept (target.needsIntToFloat value) else .reject fault

/-- The rule of an assignment to a variable or an array element. Whole arrays are neither assigned to nor
assigned, and an array on the right is named. -/
def assignRuling (target value : Ty) (valueName : String) : Ruling Bool :=
  if target.isArray then .reject .invalidLvalue
  else if value.isArray then .reject (.notScalar valueName)
  else storeRuling .incompatibleAssignment target value

/-- Whether an argument may be passed for a parameter: an array for an array by the types of the elements,
all else as if it were stored. -/
def argumentFits (param arg : Ty) : Bool :=
  match param, arg with
  | _, .error => true
  | .array expected _, .array found _ => expected.assignable found
  | _, _ => param.assignable arg

/-- The rule of an argument: whether it is converted. -/
def argumentRuling (param arg : Ty) : Ruling Bool :=
  if argumentFits param arg then .accept (param.needsIntToFloat arg) else .reject .wrongArgumentType

/-! ## Other constructs -/

/-- A condition is a boolean. -/
def conditionFault? (fault : Ty → Fault) (cond : Ty) : Option Fault :=
  if cond.isBoolean || cond.isError then none else some (fault cond)

/-- A subscript is an `int`. -/
def subscriptFault? (index : Ty) : Option Fault :=
  if index.isInt || index.isError then none else some .subscriptNotInteger

/-- A variable or a parameter is not of type `void`, nor an array of it. -/
def voidFault? (name : String) : Ty → Option Fault
  | .void => some (.declaredVoid name)
  | .array .void _ => some (.declaredVoidArray name)
  | _ => none

/-- What `main` returns is an `int`. -/
def mainReturnFault? (value : Ty) : Option Fault :=
  if value.isInt || value.isError then none else some .mainNotInt

/-! ## Small facts -/

theorem storeRuling_error (fault : Fault) (target : Ty) : (storeRuling fault target .error).fault? = none := by
  rw [storeRuling, if_pos (Ty.assignable_error_right target)]
  rfl

theorem argumentFits_error (param : Ty) : argumentFits param .error = true := by cases param <;> rfl

end VCLang
