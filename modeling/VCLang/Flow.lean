/-
Which statements never let control go on behind them because every path through them ends in a `return`.
A loop counts only if its condition is the word `true` or omitted and no `break` leaves it.
-/
import VCLang.Tree.Stmt
namespace VCLang.Stmt

mutual

/-- Whether a statement holds a `break` that leaves the loop whose body it is. -/
def breaksOut : Stmt → Bool
  | breakStmt _ => true
  | compound _ _ stmts => anyBreaksOut stmts
  | ifThen _ _ thenBranch => breaksOut thenBranch
  | ifElse _ _ thenBranch elseBranch => breaksOut thenBranch || breaksOut elseBranch
  | _ => false

def anyBreaksOut : List Stmt → Bool
  | [] => false
  | s :: ss => breaksOut s || anyBreaksOut ss

end

mutual

/-- Whether every path through a statement ends in a `return`. -/
def alwaysReturns : Stmt → Bool
  | returnStmt _ _ => true
  | compound _ _ stmts => anyAlwaysReturns stmts
  | ifElse _ _ thenBranch elseBranch => alwaysReturns thenBranch && alwaysReturns elseBranch
  | whileStmt _ cond body => cond.isTrueLiteral && !body.breaksOut
  | forStmt _ _ cond _ body => (cond.map Expr.isTrueLiteral).getD true && !body.breaksOut
  | _ => false

def anyAlwaysReturns : List Stmt → Bool
  | [] => false
  | s :: ss => alwaysReturns s || anyAlwaysReturns ss

end

theorem anyBreaksOut_eq (ss : List Stmt) : anyBreaksOut ss = ss.any breaksOut := by
  induction ss with
  | nil => rfl
  | cons s ss ih => rw [anyBreaksOut, ih, List.any_cons]

theorem anyAlwaysReturns_eq (ss : List Stmt) : anyAlwaysReturns ss = ss.any alwaysReturns := by
  induction ss with
  | nil => rfl
  | cons s ss ih => rw [anyAlwaysReturns, ih, List.any_cons]

end VCLang.Stmt
