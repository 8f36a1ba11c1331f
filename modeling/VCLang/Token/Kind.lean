/-
The kinds of token, the spelling a kind is quoted with, and the words that are not identifiers.
-/
namespace VCLang

/-- What a token is: a keyword, an operator, a separator, a name, a literal, an illegal character or
the end of the text. -/
inductive TokenKind where
  | kwBoolean | kwBreak | kwContinue | kwElse | kwFloat | kwFor | kwIf | kwInt | kwReturn | kwVoid
  | kwWhile
  | plus | minus | mult | div | not | notEq | eq | eqEq | lt | ltEq | gt | gtEq | andAnd | orOr
  | lCurly | rCurly | lParen | rParen | lBracket | rBracket | semicolon | comma
  | ident
  | intLiteral | floatLiteral | booleanLiteral | stringLiteral
  | error
  | eof
  deriving DecidableEq, Repr, Inhabited

namespace TokenKind

/-- Every kind, in order of declaration. -/
def all : List TokenKind :=
  [kwBoolean, kwBreak, kwContinue, kwElse, kwFloat, kwFor, kwIf, kwInt, kwReturn, kwVoid, kwWhile,
    plus, minus, mult, div, not, notEq, eq, eqEq, lt, ltEq, gt, gtEq, andAnd, orOr,
    lCurly, rCurly, lParen, rParen, lBracket, rBracket, semicolon, comma,
    ident, intLiteral, floatLiteral, booleanLiteral, stringLiteral, error, eof]

theorem mem_all (k : TokenKind) : k ∈ all := by cases k <;> decide

/-- The name a kind is printed with. -/
def name : TokenKind → String
  | kwBoolean => "Boolean" | kwBreak => "Break" | kwContinue => "Continue" | kwElse => "Else"
  | kwFloat => "Float" | kwFor => "For" | kwIf => "If" | kwInt => "Int" | kwReturn => "Return"
  | kwVoid => "Void" | kwWhile => "While"
  | plus => "Plus" | minus => "Minus" | mult => "Mult" | div => "Div" | not => "Not"
  | notEq => "NotEq" | eq => "Eq" | eqEq => "EqEq" | lt => "Lt" | ltEq => "LtEq" | gt => "Gt"
  | gtEq => "GtEq" | andAnd => "AndAnd" | orOr => "OrOr"
  | lCurly => "LCurly" | rCurly => "RCurly" | lParen => "LParen" | rParen => "RParen"
  | lBracket => "LBracket" | rBracket => "RBracket" | semicolon => "Semicolon" | comma => "Comma"
  | ident => "Id"
  | intLiteral => "IntLiteral" | floatLiteral => "FloatLiteral"
  | booleanLiteral => "BooleanLiteral" | stringLiteral => "StringLiteral"
  | error => "Error"
  | eof => "EOF"

/-- The kind with a given name. -/
def ofName? (s : String) : Option TokenKind := all.find? (·.name = s)

/-- No two kinds share a name. -/
theorem ofName?_name (k : TokenKind) : ofName? k.name = some k := by
  have hall : ∀ k ∈ all, ofName? k.name = some k := by decide +kernel
  exact hall k (mem_all k)

/-- The spelling a kind is quoted with: its text if it has only one, else its class. -/
def spelling : TokenKind → String
  | kwBoolean => "boolean" | kwBreak => "break" | kwContinue => "continue" | kwElse => "else"
  | kwFloat => "float" | kwFor => "for" | kwIf => "if" | kwInt => "int" | kwReturn => "return"
  | kwVoid => "void" | kwWhile => "while"
  | plus => "+" | minus => "-" | mult => "*" | div => "/" | not => "!"
  | notEq => "!=" | eq => "=" | eqEq => "==" | lt => "<" | ltEq => "<=" | gt => ">"
  | gtEq => ">=" | andAnd => "&&" | orOr => "||"
  | lCurly => "\x7b" | rCurly => "\x7d" | lParen => "(" | rParen => ")"
  | lBracket => "[" | rBracket => "]" | semicolon => ";" | comma => ","
  | ident => "<id>"
  | intLiteral => "<int-literal>" | floatLiteral => "<float-literal>"
  | booleanLiteral => "<boolean-literal>" | stringLiteral => "<string-literal>"
  | error => "<error>"
  | eof => "$"

/-- Whether a declaration can begin with a token of this kind. -/
def isType : TokenKind → Bool
  | kwVoid | kwBoolean | kwInt | kwFloat => true
  | _ => false

/-- The words that have the form of an identifier and are none. -/
def reserved : List (String × TokenKind) :=
  [("boolean", kwBoolean), ("break", kwBreak), ("continue", kwContinue), ("else", kwElse),
    ("float", kwFloat), ("for", kwFor), ("if", kwIf), ("int", kwInt), ("return", kwReturn),
    ("void", kwVoid), ("while", kwWhile), ("true", booleanLiteral), ("false", booleanLiteral)]

/-- The kind of a reserved word. -/
def ofReserved? (word : String) : Option TokenKind := reserved.lookup word

/-- The kind of a whole word: reserved, or an identifier. -/
def ofWord (word : String) : TokenKind := (ofReserved? word).getD ident

end TokenKind

end VCLang
