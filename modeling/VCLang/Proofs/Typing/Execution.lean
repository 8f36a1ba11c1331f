/-
How control leaves statements: a semantics of executions in which a condition may go either way, unless it is
that of a loop and the word `true`. A statement that always returns is never left at its end, and in a program
whose jumps all stand in loops the body of a function that has its return is only left by a `return`.
-/
import VCLang.Proofs.Elaboration.Statement
import VCLang.Proofs.Typing.Judgement
namespace VCLang

/-- How an execution of a statement ends. -/
inductive Exit where
  /-- At the end of the statement. -/
  | normal
  | broken
  | continued
  | returned
  deriving DecidableEq, Repr

namespace Exit

/-- The body of a loop that ends so is followed by the next turn of the loop. -/
def GoesOn (x : Exit) : Prop := x = normal ∨ x = continued

/-- No loop around the statement is needed for it to end so. -/
def NeedsNoLoop (x : Exit) : Prop := x = normal ∨ x = returned

end Exit

/-! ## Executions -/

/-- Statements are executed in order up to the first that does not end normally. -/
inductive InOrder (Run : Stmt → Exit → Prop) : List Stmt → Exit → Prop
  | nil : InOrder Run [] .normal
  | next {s : Stmt} {ss : List Stmt} {x : Exit} : Run s .normal → InOrder Run ss x → InOrder Run (s :: ss) x
  | stop {s : Stmt} {ss : List Stmt} {x : Exit} : Run s x → x ≠ .normal → InOrder Run (s :: ss) x

/-- The turns of a loop with a body; the flag says whether its condition can fail. -/
inductive Turns (Run : Stmt → Exit → Prop) : Bool → Stmt → Exit → Prop
  | done {body : Stmt} : Turns Run true body .normal
  | again {canFail : Bool} {body : Stmt} {x y : Exit} : Run body x → x.GoesOn → Turns Run canFail body y →
    Turns Run canFail body y
  | broken {canFail : Bool} {body : Stmt} : Run body .broken → Turns Run canFail body .normal
  | returned {canFail : Bool} {body : Stmt} : Run body .returned → Turns Run canFail body .returned

/-- The finite executions of statements. -/
inductive Executes : Stmt → Exit → Prop
  | compound {info : StmtInfo} {decls : List VarDecl} {stmts : List Stmt} {x : Exit} :
    InOrder Executes stmts x → Executes (.compound info decls stmts) x
  | ifThen {info : StmtInfo} {cond : Expr} {thenBranch : Stmt} {x : Exit} : Executes thenBranch x →
    Executes (.ifThen info cond thenBranch) x
  | ifSkipped {info : StmtInfo} {cond : Expr} {thenBranch : Stmt} :
    Executes (.ifThen info cond thenBranch) .normal
  | ifElseThen {info : StmtInfo} {cond : Expr} {thenBranch elseBranch : Stmt} {x : Exit} : Executes thenBranch x →
    Executes (.ifElse info cond thenBranch elseBranch) x
  | ifElseElse {info : StmtInfo} {cond : Expr} {thenBranch elseBranch : Stmt} {x : Exit} : Executes elseBranch x →
    Executes (.ifElse info cond thenBranch elseBranch) x
  | whileStmt {info : StmtInfo} {cond : Expr} {body : Stmt} {x : Exit} :
    Turns Executes (!cond.isTrueLiteral) body x → Executes (.whileStmt info cond body) x
  | forStmt {info : StmtInfo} {init cond update : Option Expr} {body : Stmt} {x : Exit} :
    Turns Executes (cond.any fun e => !e.isTrueLiteral) body x →
    Executes (.forStmt info init cond update body) x
  | breakStmt {info : StmtInfo} : Executes (.breakStmt info) .broken
  | continueStmt {info : StmtInfo} : Executes (.continueStmt info) .continued
  | returnStmt {info : StmtInfo} {value : Option Expr} : Executes (.returnStmt info value) .returned
  | exprStmt {info : StmtInfo} {expr : Expr} : Executes (.exprStmt info expr) .normal
  | emptyStmt {info : StmtInfo} : Executes (.emptyStmt info) .normal

section Parts

variable {Run : Stmt → Exit → Prop} {canFail : Bool} {body : Stmt} {ss : List Stmt} {x : Exit}

/-- Statements are left at their end, or as one of them is left. -/
theorem InOrder.exit (h : InOrder Run ss x) : x = .normal ∨ ∃ s ∈ ss, Run s x := by
  induction h with
  | nil => exact .inl rfl
  | next _ _ ih => exact ih.imp_right fun ⟨s, hs, hrun⟩ => ⟨s, by simp [hs], hrun⟩
  | stop hrun => exact .inr ⟨_, by simp, hrun⟩

/-- Statements that are left at their end have each been left at its own. -/
theorem InOrder.forall_normal (h : InOrder Run ss .normal) : ∀ s ∈ ss, Run s .normal := by
  generalize hx : Exit.normal = x at h
  induction h with
  | nil => simp
  | next hrun _ ih =>
    subst hx
    exact List.forall_mem_cons.2 ⟨hrun, ih rfl⟩
  | stop _ hx' => exact absurd hx.symm hx'

/-- The jumps in the body of a loop stay inside the loop. -/
theorem Turns.needsNoLoop (h : Turns Run canFail body x) : x.NeedsNoLoop := by
  induction h with
  | again _ _ _ ih => exact ih
  | returned => exact .inr rfl
  | _ => exact .inl rfl

/-- A loop is left at its end only if its condition can fail or a `break` leaves it. -/
theorem Turns.normal (h : Turns Run canFail body .normal) : canFail = true ∨ Run body .broken := by
  generalize hx : Exit.normal = x at h
  induction h with
  | done => exact .inl rfl
  | again _ _ _ ih => exact ih hx
  | broken hbroken => exact .inr hbroken
  | returned => cases hx

end Parts

namespace Stmt

/-- Only a `break` that leaves the loop around a statement ends it so. -/
theorem breaksOut_of_executes {s : Stmt} (h : Executes s .broken) : s.breaksOut = true := by
  induction s using Stmt.induct with
  | compound info decls stmts ih =>
    cases h with
    | compound hstmts =>
      rcases hstmts.exit with hx | ⟨s, hs, hrun⟩
      · cases hx
      · rw [breaksOut, anyBreaksOut_eq, List.any_eq_true]
        exact ⟨s, hs, ih s hs hrun⟩
  | ifThen info cond thenBranch ih =>
    cases h with
    | ifThen hthen => exact ih hthen
  | ifElse info cond thenBranch elseBranch ihThen ihElse =>
    rw [breaksOut, Bool.or_eq_true]
    cases h with
    | ifElseThen hthen => exact .inl (ihThen hthen)
    | ifElseElse helse => exact .inr (ihElse helse)
  | whileStmt info cond body =>
    cases h with
    | whileStmt hturns => rcases hturns.needsNoLoop with hx | hx <;> cases hx
  | forStmt info init cond update body =>
    cases h with
    | forStmt hturns => rcases hturns.needsNoLoop with hx | hx <;> cases hx
  | breakStmt info => rfl
  | _ => cases h

/-- A loop whose condition never fails and that no `break` leaves has no end. -/
theorem not_turns_normal {canFail : Bool} {body : Stmt} (hcond : canFail = false)
    (hbody : (!body.breaksOut) = true) : ¬ Turns Executes canFail body .normal := by
  intro h
  rcases h.normal with hfail | hbroken
  · simp [hcond] at hfail
  · simp [breaksOut_of_executes hbroken] at hbody

/-- The end of a statement that always returns is never reached. -/
theorem not_normal_of_alwaysReturns {s : Stmt} (h : s.alwaysReturns = true) : ¬ Executes s .normal := by
  induction s using Stmt.induct with
  | compound info decls stmts ih =>
    rw [alwaysReturns, anyAlwaysReturns_eq, List.any_eq_true] at h
    obtain ⟨s, hs, hreturns⟩ := h
    intro hrun
    cases hrun with
    | compound hstmts => exact ih s hs hreturns (hstmts.forall_normal s hs)
  | ifElse info cond thenBranch elseBranch ihThen ihElse =>
    rw [alwaysReturns, Bool.and_eq_true] at h
    intro hrun
    cases hrun with
    | ifElseThen hthen => exact ihThen h.1 hthen
    | ifElseElse helse => exact ihElse h.2 helse
  | whileStmt info cond body =>
    rw [alwaysReturns, Bool.and_eq_true] at h
    intro hrun
    cases hrun with
    | whileStmt hturns => exact not_turns_normal (by simp [h.1]) h.2 hturns
  | forStmt info init cond update body =>
    rw [alwaysReturns, Bool.and_eq_true] at h
    intro hrun
    cases hrun with
    | forStmt hturns =>
      -- an omitted condition never fails
      have hcond : (cond.any fun e => !e.isTrueLiteral) = false := by
        cases cond with
        | none => rfl
        | some e => simpa using h.1
      exact not_turns_normal hcond h.2 hturns
  | returnStmt info value =>
    rintro ⟨⟩
  | _ => cases h

end Stmt

/-! ## Checked statements -/

namespace Typing

open Check

variable {options : Options} {k k' : Checker} {errors : List Error} {x : Exit}

/-- Every `break` and `continue` stands in a loop, as far as the errors say: none of them is `*23` or `*24`. -/
def JumpsInLoops (errors : List Error) : Prop :=
  ∀ e ∈ errors, e.fault ≠ .breakOutsideLoop ∧ e.fault ≠ .continueOutsideLoop

@[simp] theorem jumpsInLoops_append {errors more : List Error} :
    JumpsInLoops (errors ++ more) ↔ JumpsInLoops errors ∧ JumpsInLoops more :=
  List.forall_mem_append

/-- A jump in no loop is reported. -/
theorem not_jumpsInLoops {f : Fault} {span : Span} {u : Unit} (hk : k.loopDepth = 0)
    (hf : f = .breakOutsideLoop ∨ f = .continueOutsideLoop) (h : (requireLoop f span).Ends k u k' errors) :
    ¬ JumpsInLoops errors := by
  simp only [requireLoop, ends_bind, ends_get] at h
  obtain ⟨_, _, _, _, rfl, ⟨rfl, rfl, rfl⟩, h⟩ := h
  rw [if_pos hk, ends_report] at h
  obtain ⟨-, rfl⟩ := h
  intro hjumps
  have hfault := hjumps ⟨f, span⟩ (by simp)
  rcases hf with rfl | rfl
  · exact hfault.1 rfl
  · exact hfault.2 rfl

/-- A statement that is in no loop and is checked without a report of a jump needs none. -/
def StaysInFunction (options : Options) (s : Stmt) : Prop :=
  ∀ ⦃k s' k' errors⦄ ⦃x : Exit⦄, (checkStmt options s).Ends k s' k' errors → k.loopDepth = 0 → JumpsInLoops errors →
    Executes s' x → x.NeedsNoLoop

theorem staysInFunction_checkStmts {ss ss' : List Stmt} (hss : ∀ s ∈ ss, StaysInFunction options s)
    (h : (checkStmts options ss).Ends k ss' k' errors) (hk : k.loopDepth = 0) (hjumps : JumpsInLoops errors)
    (hx : InOrder Executes ss' x) : x.NeedsNoLoop := by
  induction ss generalizing k k' ss' errors with
  | nil =>
    obtain ⟨rfl, -, -⟩ := ends_pure.1 h
    cases hx
    exact .inl rfl
  | cons s ss ih =>
    simp only [checkStmts, ends_bind, ends_pure] at h
    obtain ⟨s', _, first, _, rfl, hs, _, _, own, _, rfl, hreport, ss', _, more, _, rfl, hrest, rfl, -, rfl⟩ := h
    simp only [jumpsInLoops_append] at hjumps
    cases hx with
    | next _ hx =>
      -- the check of the first statement and what it says of the next leave the loops as they were
      obtain ⟨_, -, rfl⟩ := elaboratesStmtAs options s hs
      obtain ⟨rfl, -⟩ := elaborates_reportUnreachable hreport
      exact ih (fun s hs => hss s (by simp [hs])) hrest hk hjumps.2.2.1 hx
    | stop hx => exact hss s (by simp) hs hk hjumps.1 hx

theorem staysInFunction (options : Options) (s : Stmt) : StaysInFunction options s := by
  induction s using Stmt.induct with
  | compound info decls stmts ih =>
    intro k s' k' errors x h hk hjumps hx
    simp only [checkStmt, ends_bind, ends_openScope, ends_closeScope, ends_pure] at h
    obtain ⟨_, _, _, _, rfl, ⟨rfl, rfl⟩, decls', k₁, first, _, rfl, hdecls, stmts', k₂, more, _, rfl, hstmts, _, _, _,
      _, rfl, -, rfl, -, rfl⟩ := h
    obtain ⟨-, hk₁⟩ := elaborates_checkVarDecls hdecls
    simp only [jumpsInLoops_append] at hjumps
    cases hx with
    | compound hx =>
      refine staysInFunction_checkStmts ih hstmts ?_ hjumps.2.2.1 hx
      rw [hk₁]
      exact hk
  | ifThen info cond thenBranch ih =>
    intro k s' k' errors x h hk hjumps hx
    simp only [checkStmt, ends_bind, ends_pure] at h
    obtain ⟨cond', _, _, _, rfl, hcond, then', _, more, _, rfl, hthen, rfl, -, rfl⟩ := h
    obtain ⟨_, _, _, -, -, rfl, rfl⟩ := elaborates_checkCondition (fun _ => rfl) hcond
    simp only [jumpsInLoops_append] at hjumps
    cases hx with
    | ifThen hx => exact ih hthen hk hjumps.2.1 hx
    | ifSkipped => exact .inl rfl
  | ifElse info cond thenBranch elseBranch ihThen ihElse =>
    intro k s' k' errors x h hk hjumps hx
    simp only [checkStmt, ends_bind, ends_pure] at h
    obtain ⟨cond', _, _, _, rfl, hcond, then', _, more, _, rfl, hthen, else', _, last, _, rfl, helse, rfl, -, rfl⟩ := h
    obtain ⟨_, _, _, -, -, rfl, rfl⟩ := elaborates_checkCondition (fun _ => rfl) hcond
    simp only [jumpsInLoops_append] at hjumps
    cases hx with
    | ifElseThen hx => exact ihThen hthen hk hjumps.2.1 hx
    | ifElseElse hx =>
      obtain ⟨_, -, rfl⟩ := elaboratesStmtAs options thenBranch hthen
      exact ihElse helse hk hjumps.2.2.1 hx
  | whileStmt info cond body =>
    intro k s' k' errors x h _ _ hx
    obtain ⟨_, hloop, -⟩ := elaboratesStmtAs options _ h
    cases hloop
    cases hx with
    | whileStmt hx => exact hx.needsNoLoop
  | forStmt info init cond update body =>
    intro k s' k' errors x h _ _ hx
    obtain ⟨_, hloop, -⟩ := elaboratesStmtAs options _ h
    cases hloop
    cases hx with
    | forStmt hx => exact hx.needsNoLoop
  | breakStmt info =>
    intro k s' k' errors x h hk hjumps _
    simp only [checkStmt, ends_bind, ends_pure] at h
    obtain ⟨_, _, own, _, rfl, hloop, -, -, rfl⟩ := h
    exact absurd (jumpsInLoops_append.1 hjumps).1 (not_jumpsInLoops hk (.inl rfl) hloop)
  | continueStmt info =>
    intro k s' k' errors x h hk hjumps _
    simp only [checkStmt, ends_bind, ends_pure] at h
    obtain ⟨_, _, own, _, rfl, hloop, -, -, rfl⟩ := h
    exact absurd (jumpsInLoops_append.1 hjumps).1 (not_jumpsInLoops hk (.inr rfl) hloop)
  | returnStmt info value =>
    intro k s' k' errors x h _ _ hx
    obtain ⟨_, hreturn, -⟩ := elaboratesStmtAs options _ h
    cases hreturn
    cases hx
    exact .inr rfl
  | exprStmt info expr =>
    intro k s' k' errors x h _ _ hx
    obtain ⟨_, hexpr, -⟩ := elaboratesStmtAs options _ h
    cases hexpr
    cases hx
    exact .inl rfl
  | emptyStmt info =>
    intro k s' k' errors x h _ _ hx
    obtain ⟨rfl, -, -⟩ := ends_pure.1 h
    cases hx
    exact .inl rfl

/-! ## Functions and programs -/

/-- A function that has its return is only left by a `return`. -/
def LeftByReturn (f : Function) : Prop := f.hasReturn = true → ∀ x, Executes f.body.toStmt x → x = .returned

theorem leftByReturn_checkFunction {f f' : Function} (h : (checkFunction options f).Ends k f' k' errors)
    (hk : k.loopDepth = 0) (hjumps : JumpsInLoops errors) : LeftByReturn f' := by
  unfold checkFunction checkBody at h
  simp only [ends_bind, ends_declare, ends_openScope, ends_get, ends_modify, ends_pure] at h
  obtain ⟨_, _, _, _, rfl, ⟨rfl, rfl⟩, _, _, _, _, rfl, ⟨rfl, rfl⟩, _, _, _, _, rfl, ⟨rfl, rfl, rfl⟩, h⟩ := h
  obtain ⟨_, _, _, _, rfl, ⟨rfl, rfl⟩, _, _, first, _, rfl, hparams, h⟩ := h
  obtain ⟨_, -, rfl, -⟩ := elaborates_checkParams hparams
  obtain ⟨_, _, _, _, rfl, ⟨decls', k₁, second, _, rfl, hdecls, stmts', _, third, _, rfl, hstmts, rfl, -, rfl⟩,
    h⟩ := h
  obtain ⟨-, hk₁⟩ := elaborates_checkVarDecls hdecls
  obtain ⟨_, _, _, _, -, -, _, _, _, _, -, -, _, _, _, _, -, -, rfl, -, -⟩ := h
  simp only [jumpsInLoops_append] at hjumps
  obtain ⟨-, -, -, -, -, ⟨-, hjumps, -⟩, -⟩ := hjumps
  intro hreturns x hx
  cases hx with
  | compound hx =>
    have hdepth : k₁.loopDepth = 0 := by
      rw [hk₁]
      exact hk
    rcases staysInFunction_checkStmts (fun s _ => staysInFunction options s) hstmts hdepth hjumps hx with rfl | rfl
    · exact absurd (.compound hx) (Stmt.not_normal_of_alwaysReturns hreturns)
    · rfl

theorem leftByReturn_checkTopDecls {ds ds' : List TopDecl} (h : (checkTopDecls options ds).Ends k ds' k' errors)
    (hk : k.loopDepth = 0) (hjumps : JumpsInLoops errors) : ∀ f, .func f ∈ ds' → LeftByReturn f := by
  induction ds generalizing k k' ds' errors with
  | nil =>
    obtain ⟨rfl, -, -⟩ := ends_pure.1 h
    simp
  | cons d ds ih =>
    simp only [checkTopDecls, ends_bind, ends_pure] at h
    obtain ⟨d', k₁, first, _, rfl, hd, ds', _, more, _, rfl, hds, rfl, -, rfl⟩ := h
    simp only [jumpsInLoops_append] at hjumps
    -- outside all functions no loop is open, before a declaration or behind it
    have hdepth : k₁.loopDepth = 0 := by
      cases d with
      | func f =>
        obtain ⟨f', hcheck, -⟩ := ends_map.1 hd
        obtain ⟨_, -, rfl⟩ := elaborates_checkFunction hcheck
        exact hk
      | var d =>
        obtain ⟨d', hcheck, -⟩ := ends_map.1 hd
        obtain ⟨_, _, -, -, rfl⟩ := elaborates_checkVarDecl hcheck
        exact hk
    have hrest := ih hds hdepth hjumps.2.1
    intro f hf
    rcases List.mem_cons.1 hf with rfl | hf
    · cases d with
      | func f =>
        obtain ⟨f', hcheck, ⟨⟩⟩ := ends_map.1 hd
        exact leftByReturn_checkFunction hcheck hk hjumps.1
      | var d =>
        obtain ⟨d', -, ⟨⟩⟩ := ends_map.1 hd
    · exact hrest f hf

theorem leftByReturn_check {p : Program} (hjumps : JumpsInLoops (check options p).2) :
    ∀ f, .func f ∈ (check options p).1.decls → LeftByReturn f := by
  rw [check_eq] at hjumps ⊢
  exact leftByReturn_checkTopDecls (ends (checkTopDecls options p.decls) _) rfl (jumpsInLoops_append.1 hjumps).1

end Typing

open Typing

/-- No execution of a statement that always returns reaches its end, and if a check of a program reports no jump
outside loops, the functions that it says have their return are only left by a `return`. -/
theorem alwaysReturns_sound :
    (∀ s : Stmt, s.alwaysReturns = true → ¬ Executes s .normal) ∧
      ∀ (options : Options) (p : Program), JumpsInLoops (check options p).2 →
        ∀ f, .func f ∈ (check options p).1.decls → LeftByReturn f :=
  ⟨fun _ => Stmt.not_normal_of_alwaysReturns, fun _ _ => leftByReturn_check⟩

/-- An endless loop that only a `return` leaves, some turns of which end in a `continue`. -/
theorem alwaysReturns_sound_endless : ∃ source p f, (parse source).result = .ok p ∧
    .func f ∈ (check .standard p).1.decls ∧ f.body.toStmt.alwaysReturns = true ∧ f.hasReturn = true ∧
      JumpsInLoops (check .standard p).2 ∧ ¬ Executes f.body.toStmt .normal ∧
        ∀ x, Executes f.body.toStmt x → x = .returned := by
  let source := "int main(){int i = 0; while(true){i = i + 1; if(i < 9) continue; return i;}}"
  let returns (d : TopDecl) : Bool :=
    TopDecl.casesOn d (fun f => f.body.toStmt.alwaysReturns && f.hasReturn) fun _ => false
  have hcompiled : ((compile .standard source).program.any fun p => p.decls.any returns) = true := by decide +kernel
  obtain ⟨_, hp, hany⟩ := (Option.any_eq_true _ _).1 hcompiled
  obtain ⟨parsed, hparsed, -, haccepted, rfl⟩ := compile_program_iff.1 hp
  obtain ⟨d, hd, hreturns⟩ := List.any_eq_true.1 hany
  cases d with
  | var d => cases hreturns
  | func f =>
    obtain ⟨hbody, hflag⟩ := Bool.and_eq_true_iff.1 hreturns
    have hjumps : JumpsInLoops (check .standard parsed).2 := by simp [JumpsInLoops, haccepted]
    exact ⟨source, parsed, f, hparsed, hd, hbody, hflag, hjumps, alwaysReturns_sound.1 _ hbody,
      alwaysReturns_sound.2 .standard parsed hjumps f hd hflag⟩

/-- A `break` under a condition lets the same kind of loop be left at its end. -/
example (info : StmtInfo) (i : ExprInfo) (cond : Expr) :
    Executes (.whileStmt info (.literal i (.boolean "true")) (.ifThen info cond (.breakStmt info))) .normal :=
  .whileStmt (.broken (.ifThen .breakStmt))

end VCLang
