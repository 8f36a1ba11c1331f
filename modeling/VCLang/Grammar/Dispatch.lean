/-
Which form an expression or a statement takes, by the kind of token it begins with or goes on with.
-/
import VCLang.Grammar.Power
import VCLang.Token.Kind
namespace VCLang

/-- The forms that an operand begins with. -/
inductive OperandForm where
  /-- A sign or a negation in front of its operand. -/
  | sign
  | literal
  /-- A variable, an array element or a call. -/
  | name
  /-- An expression in parentheses. -/
  | group
  deriving DecidableEq, Repr

/-- The forms that go on after an operand. -/
inductive InfixForm where
  | assignment
  | binary
  deriving DecidableEq, Repr

/-- The forms of statements that have a token of their own; all others are expressions. -/
inductive StmtForm where
  | block
  | ifForm
  | forForm
  | whileForm
  | breakForm
  | continueForm
  | returnForm
  | emptyForm
  deriving DecidableEq, Repr

/-- What is known of the tokens. -/
structure Dispatch where
  operand : TokenKind → Option OperandForm
  continuation : TokenKind → Option (InfixForm × Power)
  statement : TokenKind → Option StmtForm

namespace Dispatch

/-- The tables of the language. -/
def standard : Dispatch where
  operand
    | .plus | .minus | .not => some .sign
    | .intLiteral | .floatLiteral | .booleanLiteral | .stringLiteral => some .literal
    | .ident => some .name
    | .lParen => some .group
    | _ => none
  continuation
    | .eq => some (.assignment, .assignment)
    | .orOr => some (.binary, .logicalOr)
    | .andAnd => some (.binary, .logicalAnd)
    | .eqEq | .notEq => some (.binary, .equality)
    | .lt | .ltEq | .gt | .gtEq => some (.binary, .relational)
    | .plus | .minus => some (.binary, .additive)
    | .mult | .div => some (.binary, .multiplicative)
    | _ => none
  statement
    | .lCurly => some .block
    | .kwIf => some .ifForm
    | .kwFor => some .forForm
    | .kwWhile => some .whileForm
    | .kwBreak => some .breakForm
    | .kwContinue => some .continueForm
    | .kwReturn => some .returnForm
    | .semicolon => some .emptyForm
    | _ => none

/-- Tables in which nothing is entered. -/
def empty : Dispatch where
  operand _ := none
  continuation _ := none
  statement _ := none

/-- How tightly the form that a token goes on with binds. -/
def power? (d : Dispatch) (k : TokenKind) : Option Power := (d.continuation k).map (·.2)

end Dispatch

end VCLang
