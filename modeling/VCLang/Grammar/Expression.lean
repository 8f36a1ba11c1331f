/-
Expressions by the power of their operators. An operand is followed by as many operators as bind tighter
than the power asked for; binary operators take their right operand at their own power, so that they group
to the left, and an assignment takes its value at the lowest, so that it groups to the right.
-/
import VCLang.Grammar.Dispatch
import VCLang.Grammar.Parser
namespace VCLang

/-- The literal that a token spells. -/
def Literal.ofToken (t : Token) : Literal :=
  match t.kind with
  | .intLiteral => .int t.spelling
  | .floatLiteral => .float t.spelling
  | .booleanLiteral => .boolean t.spelling
  | _ => .string t.spelling

/-- The operator that a token spells. -/
def Operator.ofToken (t : Token) : Operator := ⟨t.spelling, t.span⟩

namespace Grammar

open Parse

/-- A variable, an element of an array or a call, by the token after the name. -/
def nameForm (expr : Power → Parse Expr) : Parse Expr := do
  let start ← start
  let ident ← expectIdent
  match ← kind with
  | .lParen =>
    let args ← parenthesised (expr .lowest)
    newExpr (.call · ident args) (← spanFrom start)
  | .lBracket =>
    let _ ← advance
    let index ← expr .lowest
    let _ ← expect .rBracket
    newExpr (.arrayAccess · ident index) (← spanFrom start)
  | _ => newExpr (.var · ident) (← spanFrom start)

/-- An operand of a given form; `expr` reads an expression at a power. -/
def operand (expr : Power → Parse Expr) : OperandForm → Parse Expr
  | .literal => do
    let t ← advance
    newExpr (.literal · (.ofToken t)) t.span
  | .sign => do
    let t ← advance
    let e ← expr .unary
    newExpr (.unary · (.ofToken t) e) (t.span.join e.span)
  | .name => nameForm expr
  | .group => do
    let _ ← advance
    let e ← expr .lowest
    let _ ← expect .rParen
    return e

/-- What an operator of a given form makes of its left operand. -/
def continueWith (expr : Power → Parse Expr) (power : Power) (left : Expr) : InfixForm → Parse Expr
  | .binary => do
    let t ← advance
    let right ← expr power
    newExpr (.binary · (.ofToken t) left right) (left.span.join right.span)
  | .assignment => do
    let _ ← advance
    let value ← expr .lowest
    newExpr (.assign · left value) (left.span.join value.span)

/-- Goes on from an operand with the operators that bind tighter than a power, `n` of them at most. -/
def extendUpTo (d : Dispatch) (expr : Power → Parse Expr) (power : Power) : Nat → Expr → Parse Expr
  | 0, left => pure left
  | n + 1, left => do
    match d.continuation (← kind) with
    | none => return left
    | some (form, q) =>
      if power.below q then
        let e ← continueWith expr q left form
        extendUpTo d expr power n e
      else return left

/-- Goes on from an operand with the operators that bind tighter than a power: no more than there are
tokens. -/
def extend (d : Dispatch) (expr : Power → Parse Expr) (power : Power) (left : Expr) : Parse Expr := fun p =>
  extendUpTo d expr power p.remaining left p

/-- An expression at a power, with `n` expressions inside each other at most. -/
def expressionUpTo (d : Dispatch) : Nat → Power → Parse Expr
  | 0, _ => illegalPrimary
  | n + 1, power => do
    match d.operand (← kind) with
    | none => illegalPrimary
    | some form =>
      let left ← operand (expressionUpTo d n) form
      extend d (expressionUpTo d n) power left

/-- An expression at a power. Each expression inside another begins one token later at least, so that they
are no deeper than there are tokens. -/
def expression (d : Dispatch) (power : Power) : Parse Expr := fun p =>
  expressionUpTo d (p.remaining + 1) power p

end Grammar

end VCLang
