/-
Everything the front end can object to. Each fault has a name, a text, and the pair it is reported as:
a template with one `%` at most and the words that go there. A message that begins with a number in the
catalog of semantic faults can be asked for it.
-/
import VCLang.Text.Decimal
import VCLang.Token.Kind
import VCLang.Ty
namespace VCLang

/-- A fault, with what its text quotes. -/
inductive Fault where
  -- of the characters
  | illegalCharacter (spelling : String)
  | illegalEscape (escape : String)
  | unterminatedString (spelling : String)
  | unterminatedComment
  -- of the grammar
  | tokenExpected (expected : TokenKind)
  | identifierExpected
  | typeExpected
  | illegalPrimaryExpression (spelling : String)
  | invalidArraySize (spelling : String)
  -- of the meaning
  | mainMissing
  | mainNotInt
  | redeclared (name : String)
  | declaredVoid (name : String)
  | declaredVoidArray (name : String)
  | undeclared (name : String)
  | incompatibleAssignment
  | invalidLvalue
  | incompatibleReturn
  | incompatibleBinaryOperand (operator : String)
  | incompatibleUnaryOperand (operator : String)
  | notScalar (name : String)
  | notArray (name : String)
  | wrongInitialiserElement
  | arrayInitialiserForScalar
  | scalarInitialiserForArray
  | excessElements
  | subscriptNotInteger
  | arraySizeMissing
  | notFunction
  | ifConditionNotBoolean (found : Ty)
  | forConditionNotBoolean (found : Ty)
  | whileConditionNotBoolean (found : Ty)
  | breakOutsideLoop
  | continueOutsideLoop
  | tooManyArguments
  | tooFewArguments
  | wrongArgumentType
  | mainCalled
  | statementNotReached
  | missingReturn
  deriving DecidableEq, Repr

namespace Fault

/-- The name of the kind of fault. -/
def name : Fault → String
  | illegalCharacter _ => "IllegalCharacter"
  | illegalEscape _ => "IllegalEscape"
  | unterminatedString _ => "UnterminatedString"
  | unterminatedComment => "UnterminatedComment"
  | tokenExpected _ => "TokenExpected"
  | identifierExpected => "IdentifierExpected"
  | typeExpected => "TypeExpected"
  | illegalPrimaryExpression _ => "IllegalPrimaryExpression"
  | invalidArraySize _ => "InvalidArraySize"
  | mainMissing => "MainMissing"
  | mainNotInt => "MainNotInt"
  | redeclared _ => "Redeclared"
  | declaredVoid _ => "DeclaredVoid"
  | declaredVoidArray _ => "DeclaredVoidArray"
  | undeclared _ => "Undeclared"
  | incompatibleAssignment => "IncompatibleAssignment"
  | invalidLvalue => "InvalidLvalue"
  | incompatibleReturn => "IncompatibleReturn"
  | incompatibleBinaryOperand _ => "IncompatibleBinaryOperand"
  | incompatibleUnaryOperand _ => "IncompatibleUnaryOperand"
  | notScalar _ => "NotScalar"
  | notArray _ => "NotArray"
  | wrongInitialiserElement => "WrongInitialiserElement"
  | arrayInitialiserForScalar => "ArrayInitialiserForScalar"
  | scalarInitialiserForArray => "ScalarInitialiserForArray"
  | excessElements => "ExcessElements"
  | subscriptNotInteger => "SubscriptNotInteger"
  | arraySizeMissing => "ArraySizeMissing"
  | notFunction => "NotFunction"
  | ifConditionNotBoolean _ => "IfConditionNotBoolean"
  | forConditionNotBoolean _ => "ForConditionNotBoolean"
  | whileConditionNotBoolean _ => "WhileConditionNotBoolean"
  | breakOutsideLoop => "BreakOutsideLoop"
  | continueOutsideLoop => "ContinueOutsideLoop"
  | tooManyArguments => "TooManyArguments"
  | tooFewArguments => "TooFewArguments"
  | wrongArgumentType => "WrongArgumentType"
  | mainCalled => "MainCalled"
  | statementNotReached => "StatementNotReached"
  | missingReturn => "MissingReturn"

/-- The text of a fault. Faults of the meaning begin with `*`, their number in the catalog and `:`. -/
def text : Fault → String
  | illegalCharacter spelling => s!"{spelling}: illegal character"
  | illegalEscape escape => s!"{escape}: illegal escape character"
  | unterminatedString spelling => s!"{spelling}: unterminated string"
  | unterminatedComment => "unterminated comment"
  | tokenExpected expected => s!"\"{expected.spelling}\" expected here"
  | identifierExpected => "identifier expected here"
  | typeExpected => "type expected here"
  | illegalPrimaryExpression spelling => s!"illegal primary expression: {spelling}"
  | invalidArraySize spelling => s!"{spelling}: invalid array size"
  | mainMissing => "*0: main function is missing"
  | mainNotInt => "*1: return type of main is not int"
  | redeclared name => s!"*2: identifier redeclared: {name}"
  | declaredVoid name => s!"*3: identifier declared void: {name}"
  | declaredVoidArray name => s!"*4: identifier declared void[]: {name}"
  | undeclared name => s!"*5: identifier undeclared: {name}"
  | incompatibleAssignment => "*6: incompatible type for ="
  | invalidLvalue => "*7: invalid lvalue in assignment"
  | incompatibleReturn => "*8: incompatible type for return"
  | incompatibleBinaryOperand operator => s!"*9: incompatible type for this binary operator: {operator}"
  | incompatibleUnaryOperand operator => s!"*10: incompatible type for this unary operator: {operator}"
  | notScalar name => s!"*11: attempt to use an array/function as a scalar: {name}"
  | notArray name => s!"*12: attempt to use a scalar/function as an array: {name}"
  | wrongInitialiserElement => "*13: wrong type for element in array initialiser"
  | arrayInitialiserForScalar => "*14: invalid initialiser: array initialiser for scalar"
  | scalarInitialiserForArray => "*15: invalid initialiser: scalar initialiser for array"
  | excessElements => "*16: excess elements in array initialiser"
  | subscriptNotInteger => "*17: array subscript is not an integer"
  | arraySizeMissing => "*18: array size missing"
  | notFunction => "*19: attempt to reference a scalar/array as a function"
  | ifConditionNotBoolean found => s!"*20: if conditional is not boolean (found: {found.text})"
  | forConditionNotBoolean found => s!"*21: for conditional is not boolean (found: {found.text})"
  | whileConditionNotBoolean found => s!"*22: while conditional is not boolean (found: {found.text})"
  | breakOutsideLoop => "*23: break must be in a while/for"
  | continueOutsideLoop => "*24: continue must be in a while/for"
  | tooManyArguments => "*25: too many actual parameters"
  | tooFewArguments => "*26: too few actual parameters"
  | wrongArgumentType => "*27: wrong type for actual parameter"
  | mainCalled => "*29: misc 2: main called"
  | statementNotReached => "*30: statement(s) not reached"
  | missingReturn => "*31: missing return statement"

/-- What is handed to a sink: the text with `%` in place of the words it quotes. -/
def template : Fault → String
  | illegalCharacter _ => "%: illegal character"
  | illegalEscape _ => "%: illegal escape character"
  | unterminatedString _ => "%: unterminated string"
  | unterminatedComment => "unterminated comment"
  | tokenExpected _ => "\"%\" expected here"
  | identifierExpected => "identifier expected here"
  | typeExpected => "type expected here"
  | illegalPrimaryExpression _ => "illegal primary expression: %"
  | invalidArraySize _ => "%: invalid array size"
  | mainMissing => "*0: main function is missing"
  | mainNotInt => "*1: return type of main is not int"
  | redeclared _ => "*2: identifier redeclared: %"
  | declaredVoid _ => "*3: identifier declared void: %"
  | declaredVoidArray _ => "*4: identifier declared void[]: %"
  | undeclared _ => "*5: identifier undeclared: %"
  | incompatibleAssignment => "*6: incompatible type for ="
  | invalidLvalue => "*7: invalid lvalue in assignment"
  | incompatibleReturn => "*8: incompatible type for return"
  | incompatibleBinaryOperand _ => "*9: incompatible type for this binary operator: %"
  | incompatibleUnaryOperand _ => "*10: incompatible type for this unary operator: %"
  | notScalar _ => "*11: attempt to use an array/function as a scalar: %"
  | notArray _ => "*12: attempt to use a scalar/function as an array: %"
  | wrongInitialiserElement => "*13: wrong type for element in array initialiser"
  | arrayInitialiserForScalar => "*14: invalid initialiser: array initialiser for scalar"
  | scalarInitialiserForArray => "*15: invalid initialiser: scalar initialiser for array"
  | excessElements => "*16: excess elements in array initialiser"
  | subscriptNotInteger => "*17: array subscript is not an integer"
  | arraySizeMissing => "*18: array size missing"
  | notFunction => "*19: attempt to reference a scalar/array as a function"
  | ifConditionNotBoolean _ => "*20: if conditional is not boolean %"
  | forConditionNotBoolean _ => "*21: for conditional is not boolean %"
  | whileConditionNotBoolean _ => "*22: while conditional is not boolean %"
  | breakOutsideLoop => "*23: break must be in a while/for"
  | continueOutsideLoop => "*24: continue must be in a while/for"
  | tooManyArguments => "*25: too many actual parameters"
  | tooFewArguments => "*26: too few actual parameters"
  | wrongArgumentType => "*27: wrong type for actual parameter"
  | mainCalled => "*29: misc 2: main called"
  | statementNotReached => "*30: statement(s) not reached"
  | missingReturn => "*31: missing return statement"

/-- The words that go where the template has `%`; empty if it has none. -/
def quoted : Fault → String
  | illegalCharacter spelling | unterminatedString spelling => spelling
  | illegalPrimaryExpression spelling | invalidArraySize spelling => spelling
  | illegalEscape escape => escape
  | tokenExpected expected => expected.spelling
  | redeclared name | declaredVoid name | declaredVoidArray name | undeclared name => name
  | notScalar name | notArray name => name
  | incompatibleBinaryOperand operator | incompatibleUnaryOperand operator => operator
  | ifConditionNotBoolean found | forConditionNotBoolean found | whileConditionNotBoolean found =>
    s!"(found: {found.text})"
  | _ => ""

/-- Whether the fault is one of the grammar. -/
def isSyntaxError : Fault → Bool
  | tokenExpected _ | identifierExpected | typeExpected => true
  | illegalPrimaryExpression _ | invalidArraySize _ => true
  | _ => false

end Fault

/-! ## Filling a template, numbering a message -/

/-- Replaces the first `%` of a run of characters. -/
def fillChars (words : List Char) : List Char → List Char
  | [] => []
  | c :: cs => if c = '%' then words ++ cs else c :: fillChars words cs

/-- Replaces the first `%` of a template by the quoted words, whatever these contain. -/
def fill (template quoted : String) : String := String.ofList (fillChars quoted.toList template.toList)

/-- The number in the catalog that a message begins with: the text between a leading `*` and the first
`:`, if it is a decimal below 256. One leading `+` is allowed. -/
def catalogNumber? (message : String) : Option Nat :=
  match message.toList with
  | '*' :: cs =>
    if ':' ∈ cs then
      match cs.takeWhile (· ≠ ':') with
      | '+' :: ds => boundedDecimal? 255 ds
      | ds => boundedDecimal? 255 ds
    else none
  | _ => none

/-- The number of a fault in the catalog; only faults of the meaning have one. -/
def Fault.code? (f : Fault) : Option Nat := catalogNumber? f.template

end VCLang
