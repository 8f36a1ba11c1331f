/-
What a check reports of control flow: every `break` and `continue` outside all loops, every statement behind a
`return`, and every function with a result whose end can be reached. Whatever else is wrong has no part in this.
-/
import VCLang.Proofs.Verdict.Program
namespace VCLang

open Typing

/-- The statements that stand in a list in a statement. -/
def Stmt.listed : Stmt → List Stmt
  | compound _ _ stmts => stmts
  | _ => []

/-- What is wrong with the end of a function: that it can be reached although the function has a result. -/
def Function.endErrors (f : Function) : List Error :=
  if f.ty ≠ .void ∧ f.body.toStmt.alwaysReturns = false then [⟨.missingReturn, f.span⟩] else []

namespace Typing

variable {options : Options} {n : Nat}

/-- An expression and a variable have no errors of control flow. -/
theorem numbered_ownErrors_eq_nil {c : Construct} {k : Checker} {τ : ExprId → Ty} (hn : n ∈ [23, 24, 30, 31])
    (hc : c.statement = []) : numbered n (c.ownErrors options k τ) = [] := by
  simp only [List.mem_cons, List.not_mem_nil, or_false] at hn
  cases c with
  | expr whole e =>
    by_cases he : ∃ info ident args, e = .call info ident args
    · obtain ⟨info, ident, args, rfl⟩ := he
      exact ofNumbers_call.numbered_eq_nil (by simp; omega)
    · simp only [not_exists] at he
      exact (ofNumbers_verdict he).numbered_eq_nil (by simp; omega)
  | var d => exact (ofNumbers_var d k.env τ).numbered_eq_nil (by simp; omega)
  | stmt s => cases hc
  | func f => cases hc

end Typing

/-! ## What is reported of control flow -/

/-- A property of the members of a list gives one value for each that has it. -/
theorem flatMap_ite {α β : Type} (xs : List α) (q : α → Prop) [DecidablePred q] (f : α → β) :
    (xs.flatMap fun x => if q x then [f x] else []) = (xs.filter q).map f := by
  induction xs with
  | nil => rfl
  | cons x xs ih =>
    rw [List.flatMap_cons, ih, List.filter_cons]
    by_cases hx : q x <;> simp [hx]

open Classical in
/-- The statements of a kind that are in no loop. -/
noncomputable def Program.outsideLoops (p : Program) (k : StmtKind) : List Stmt :=
  p.statements.filter fun s => s.kind = k ∧ ¬ p.arena.InLoop (.stmt s.id)

/-- The errors about control flow are those that the statements and the functions of a program call for: one for each
jump that is in no loop, one for each statement that stands right behind a `return` in its list, and one for each
function with a result whose body does not always return. -/
structure FlowReported (p : Program) (errors : List Error) : Prop where
  breaks : (numbered 23 errors).Perm ((p.outsideLoops .breakStmt).map fun s => ⟨.breakOutsideLoop, s.span⟩)
  continues : (numbered 24 errors).Perm ((p.outsideLoops .continueStmt).map fun s => ⟨.continueOutsideLoop, s.span⟩)
  unreached : (numbered 30 errors).Perm
    (p.statements.flatMap fun s => (Stmt.unreached s.listed).map fun t => ⟨.statementNotReached, t.span⟩)
  returns : (numbered 31 errors).Perm
    ((p.functions.filter fun f => f.ty ≠ .void ∧ f.body.toStmt.alwaysReturns = false).map fun f =>
      ⟨.missingReturn, f.span⟩)

namespace Typing

variable {p : Program} {vs all : List Visit} {v : Visit} {a b : Arena} {τ : ExprId → Ty}

open Classical in
/-- A jump is reported where the loops around it are counted to none. -/
theorem Visit.Fits.numbered_jump (h : v.Fits a b) {n : Nat} {f : Fault} {k : StmtKind}
    (hn : (n, f, k) ∈ [(23, Fault.breakOutsideLoop, StmtKind.breakStmt), (24, .continueOutsideLoop, .continueStmt)]) :
    numbered n (v.construct.ownErrors .standard v.place τ) = v.construct.statement.flatMap fun s =>
      if s.kind = k ∧ ¬ a.InLoop (.stmt s.id) then [⟨f, s.span⟩] else [] := by
  have hjump : n = 23 ∧ f = .breakOutsideLoop ∧ k = .breakStmt ∨
      n = 24 ∧ f = .continueOutsideLoop ∧ k = .continueStmt := by
    simpa using hn
  have hnumber : n ∈ [23, 24, 30, 31] := by rcases hjump with ⟨rfl, -⟩ | ⟨rfl, -⟩ <;> simp
  have hloops := h.loops
  cases hc : v.construct with
  | expr whole e => exact numbered_ownErrors_eq_nil hnumber rfl
  | var d => exact numbered_ownErrors_eq_nil hnumber rfl
  | func g =>
    have hbody : ¬ (g.body.toStmt.kind = k ∧ ¬ a.InLoop (.stmt g.body.toStmt.id)) := by
      rintro ⟨hk, -⟩
      rcases hjump with ⟨-, -, rfl⟩ | ⟨-, -, rfl⟩ <;> cases hk
    rw [Construct.statement, List.flatMap_singleton, if_neg hbody]
    refine (ofNumbers_function .standard v.place.env g).numbered_eq_nil ?_
    rcases hjump with ⟨rfl, -⟩ | ⟨rfl, -⟩ <;> simp
  | stmt s =>
    rw [hc, Construct.node] at hloops
    rw [Construct.statement, List.flatMap_singleton, Construct.ownErrors]
    by_cases hk : s.kind = k
    · have hown : s.ownErrors .standard v.place τ = if v.place.loopDepth = 0 then [⟨f, s.span⟩] else [] := by
        rcases hjump with ⟨-, rfl, rfl⟩ | ⟨-, rfl, rfl⟩ <;> cases s <;> cases hk <;> rfl
      have hf : f.number? = some n := by rcases hjump with ⟨rfl, rfl, -⟩ | ⟨rfl, rfl, -⟩ <;> rfl
      by_cases hdepth : v.place.loopDepth = 0
      · rw [hown, if_pos hdepth, if_pos ⟨hk, hloops.1 hdepth⟩]
        exact (ofNumbers_some hf (by simp)).numbered_eq
      · rw [hown, if_neg hdepth, if_neg fun h => hdepth (hloops.2 h.2)]
        rfl
    · rw [if_neg fun h => hk h.1]
      refine (ofNumbers_stmt .standard v.place τ s).numbered_eq_nil ?_
      rcases hjump with ⟨rfl, -, rfl⟩ | ⟨rfl, -, rfl⟩ <;> cases s <;> simp_all [Stmt.numbers, Stmt.kind]

/-- What stands behind a `return` is reported where it stands in a list, which may be that of a function. -/
theorem numbered_unreached (c : Construct) (k : Checker) : numbered 30 (c.ownErrors .standard k τ) =
    c.statement.flatMap fun s => (Stmt.unreached s.listed).map fun t => ⟨.statementNotReached, t.span⟩ := by
  cases c with
  | expr whole e => exact numbered_ownErrors_eq_nil (by simp) rfl
  | var d => exact numbered_ownErrors_eq_nil (by simp) rfl
  | stmt s =>
    rw [Construct.statement, List.flatMap_singleton, Construct.ownErrors]
    cases s with
    | compound info decls stmts => exact (ofNumbers_unreachedErrors .standard stmts).numbered_eq
    | _ => exact (ofNumbers_stmt .standard k τ _).numbered_eq_nil (by simp [Stmt.numbers])
  | func f =>
    rw [Construct.statement, List.flatMap_singleton, Construct.ownErrors, Function.ownErrors, numbered_append,
      numbered_append, numbered_append, (ofNumbers_redeclaration _ _).numbered_eq_nil (by simp),
      (ofNumbers_paramErrors _ _).numbered_eq_nil (by simp),
      (ofNumbers_missingReturn _ _ _ _).numbered_eq_nil (by simp),
      (ofNumbers_unreachedErrors _ _).numbered_eq, List.append_nil]
    rfl

/-- A missing `return` is reported of functions. -/
theorem numbered_missingReturn (c : Construct) (k : Checker) : numbered 31 (c.ownErrors .standard k τ) =
    c.functions.flatMap Function.endErrors := by
  cases c with
  | expr whole e => exact numbered_ownErrors_eq_nil (by simp) rfl
  | var d => exact numbered_ownErrors_eq_nil (by simp) rfl
  | stmt s =>
    refine (ofNumbers_stmt .standard k τ s).numbered_eq_nil ?_
    cases s <;> simp [Stmt.numbers]
  | func f =>
    have hfault : reported (missingReturn? .standard f.ty f.body.toStmt.alwaysReturns) f.span = f.endErrors := by
      unfold missingReturn? Function.endErrors
      cases f.ty <;> cases f.body.toStmt.alwaysReturns <;> simp [Options.standard, Ty.isVoid]
    rw [Construct.ownErrors, Function.ownErrors, numbered_append, numbered_append, numbered_append,
      (ofNumbers_redeclaration _ _).numbered_eq_nil (by simp), (ofNumbers_paramErrors _ _).numbered_eq_nil (by simp),
      (ofNumbers_unreachedErrors _ _).numbered_eq_nil (by simp), (ofNumbers_missingReturn _ _ _ _).numbered_eq, hfault,
      Construct.functions, List.flatMap_singleton]
    rfl

end Typing

/-- Whatever else is wrong with what was parsed, a check reports of control flow what the statements and functions
of the program call for, and nothing else. -/
theorem check_reports_flow {source : String} {p : Program} (h : (parse source).result = .ok p) :
    FlowReported p (check .standard p).2 := by
  obtain ⟨hplain, hnumbered⟩ := parse_built h
  obtain ⟨vs, all, hvisited⟩ := visited_check .standard hplain hnumbered.complete
  -- what is reported of each construct is what its statement or its function calls for
  have hstmts {n : Nat} (hn : 1 < n) {f : Stmt → List Error}
      (hf : ∀ v ∈ all, numbered n (v.construct.ownErrors .standard v.place (check .standard p).1.arena.typeOf) =
        v.construct.statement.flatMap f) : (numbered n (check .standard p).2).Perm (p.statements.flatMap f) := by
    refine (hvisited.numbered_errors hn).trans ?_
    rw [List.flatMap_congr hf, ← List.flatMap_assoc]
    exact hvisited.statements_perm.symm.flatMap_right f
  constructor
  · rw [Program.outsideLoops, ← flatMap_ite]
    exact hstmts (by simp) fun v hv => (hvisited.fits v hv).numbered_jump (by simp)
  · rw [Program.outsideLoops, ← flatMap_ite]
    exact hstmts (by simp) fun v hv => (hvisited.fits v hv).numbered_jump (by simp)
  · exact hstmts (by simp) fun v _ => numbered_unreached v.construct v.place
  · rw [← flatMap_ite]
    refine (hvisited.numbered_errors (by simp)).trans ?_
    rw [List.flatMap_congr fun v _ => numbered_missingReturn v.construct v.place, ← List.flatMap_assoc]
    exact hvisited.functions_perm.symm.flatMap_right Function.endErrors

/-- Jumps in nested loops and outside of them, a statement that is not reached in the body of a function and one that
is not reached in a branch, and two functions of which one can end without a result; the rest has errors of its own. -/
theorem check_reports_flow_mixed : ∃ source p, (parse source).result = .ok p ∧
    FlowReported p (check .standard p).2 := by
  let source := "int f(){for(;;) break; break; return 1; f(2);} int g(int a){if(a) {return 1.5; ;} else continue;}"
  have hparses : (parse source).result.isOk = true := by decide +kernel
  obtain ⟨p, hp⟩ := exists_of_isOk hparses
  exact ⟨source, p, hp, check_reports_flow hp⟩

end VCLang
