/-
How tightly operators bind, from the loosest to the tightest.
-/
namespace VCLang

inductive Power where
  | lowest
  | assignment
  | logicalOr
  | logicalAnd
  | equality
  | relational
  | additive
  | multiplicative
  | unary
  | primary
  deriving DecidableEq, Repr, Inhabited

namespace Power

def all : List Power :=
  [lowest, assignment, logicalOr, logicalAnd, equality, relational, additive, multiplicative, unary, primary]

/-- The place of a power in the order. -/
def rank : Power → Nat
  | lowest => 0
  | assignment => 1
  | logicalOr => 2
  | logicalAnd => 3
  | equality => 4
  | relational => 5
  | additive => 6
  | multiplicative => 7
  | unary => 8
  | primary => 9

/-- Whether the second power binds tighter than the first. -/
def below (p q : Power) : Bool := p.rank < q.rank

theorem mem_all (p : Power) : p ∈ all := by cases p <;> decide

end Power

end VCLang
