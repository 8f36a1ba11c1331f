/-
Declarations, statements and whole programs in step with their relabelled forms. What a check keeps on its way, the
names in scope and the function it is in, are relabelled with the program; the numbers of new expressions and of the
predeclared functions are the same, since there are as many nodes as before.

So a check with some switches reports what a check with all of them does, without the faults that are switched off,
and makes the same of the program.
-/
import VCLang.Proofs.Lockstep.Expression
import VCLang.Typing.Program
namespace VCLang

namespace Typing

open Check

/-! ## The state -/

/-- What is known at the same place of a relabelled program. -/
def Checker.relabel (r : Relabelling) (k : Checker) : Checker :=
  { k with env := k.env.renamed r.name, function := k.function.map (Prototype.relabel r) }

/-- Checks of declarations and statements that go the same way. -/
abbrev StmtInStep {α β : Type} (r : Relabelling) (o : Options) (h : α → β) : Check Checker α → Check Checker β → Prop :=
  InStep (carry r o) (Checker.relabel r) h

variable {α β : Type} {r : Relabelling} {o : Options} {h : α → β}

theorem inStep_onExpr {m : Env → Check Nat α} {m' : Env → Check Nat β}
    (hm : ∀ env, ExprInStep r o h (m env) (m' (env.renamed r.name))) : StmtInStep r o h (onExpr m) (onExpr m') := by
  intro k
  have hk := hm k.env k.nextExpr
  show Outcome.mk _ _ _ = _
  rw [show m' (k.relabel r).env (k.relabel r).nextExpr = _ from hk]
  rfl

theorem inStep_openScope : StmtInStep r o id openScope openScope := inStep_modify fun _ => rfl

theorem inStep_closeScope : StmtInStep r o id closeScope closeScope :=
  inStep_modify fun k => by
    rw [Checker.relabel, Checker.relabel, Scopes.closeScope_renamed]

theorem inStep_enterLoop : StmtInStep r o id enterLoop enterLoop := inStep_modify fun _ => rfl

theorem inStep_leaveLoop : StmtInStep r o id leaveLoop leaveLoop := inStep_modify fun _ => rfl

theorem inStep_declare (ident : Ident) (b : Binding) :
    StmtInStep r o id (declare ident b) (declare (ident.relabel r) b) := by
  refine inStep_get.bind fun k => ?_
  have hname : (k.relabel r).env.retrieveOneLevel (ident.relabel r).spelling = k.env.retrieveOneLevel ident.spelling :=
    Scopes.retrieveOneLevel_renamed r.name_injective k.env ident.spelling
  have hbind : StmtInStep r o id (bindName ident.spelling b) (bindName (ident.relabel r).spelling b) :=
    inStep_modify fun _ => rfl
  rw [hname]
  exact .ite Iff.rfl (.reporting (carry_of_reports rfl) hbind) hbind

/-! ## Variables -/

theorem inStep_checkOption (e : Option Expr) :
    StmtInStep r o (Option.map (Expr.relabel r)) (checkOption e) (checkOption (e.map (Expr.relabel r))) := by
  cases e with
  | none => exact inStep_pure rfl
  | some e => exact (inStep_onExpr fun env => checksInStep e env false).bind fun _ => inStep_pure rfl

theorem inStep_reportOption {f f' : Option Fault} (hf : ∀ g ∈ f, o.reports g = true)
    (hf' : f' = f.map (Fault.relabel r)) (span : Span) :
    StmtInStep r o id (reportOption f span) (reportOption f' (r.span span)) := by
  subst hf'
  cases f with
  | none => exact inStep_pure rfl
  | some f => exact inStep_report (carry_of_reports (hf f rfl))

theorem inStep_checkWrongInit (d : VarDecl) (init : Expr) {f : Fault} (hf : o.reports f = true)
    (hr : f.relabel r = f) : StmtInStep r o (VarDecl.relabel r) (checkWrongInit d init f)
      (checkWrongInit (d.relabel r) (init.relabel r) f) := by
  have hcarry : carry r o ⟨f, d.span⟩ = some ⟨f, (d.relabel r).span⟩ := by
    rw [carry_of_reports hf, hr]
    rfl
  exact (inStep_onExpr fun env => checksInStep init env false).bind fun _ => .reporting hcarry (inStep_pure rfl)

theorem inStep_checkScalarInit (d : VarDecl) (init : Expr) : StmtInStep r o (VarDecl.relabel r) (checkScalarInit d init)
    (checkScalarInit (d.relabel r) (init.relabel r)) := by
  refine (inStep_onExpr fun env => ?_).bind fun _ => inStep_pure rfl
  refine (checksInStep init env false).bind fun init => ?_
  rw [Expr.relabel_type]
  exact inStep_settle (inStep_storeRuling rfl rfl _ _) _ _

theorem inStep_checkArrayInit (d : VarDecl) (element : Ty) (size : Option Nat) (info : ExprInfo)
    (elements : List Expr) : StmtInStep r o (VarDecl.relabel r) (checkArrayInit d element size info elements)
      (checkArrayInit (d.relabel r) element size (info.relabel r) (elements.map (Expr.relabel r))) := by
  refine (inStep_onExpr fun env => inStep_checkElements env element elements).bind fun checked => ?_
  rw [List.length_map]
  have hbuild (ty : Ty) : (⟨d.id, d.ident, ty, d.span, d.isGlobal, some (.initList (info.typed ty) checked)⟩ :
      VarDecl).relabel r = ⟨d.id, d.ident.relabel r, ty, r.span d.span, d.isGlobal,
        some (.initList ((info.relabel r).typed ty) (checked.map (Expr.relabel r)))⟩ := by
    rw [VarDecl.relabel, Option.map_some, Expr.relabel, Expr.relabelAll_eq]
    rfl
  exact .ite Iff.rfl (.reporting (carry_of_reports rfl) (inStep_pure (hbuild _))) (inStep_pure (hbuild _))

theorem inStep_checkInit (d : VarDecl) :
    StmtInStep r o (VarDecl.relabel r) (checkInit d) (checkInit (d.relabel r)) := by
  obtain ⟨id, ident, ty, span, isGlobal, _ | init⟩ := d
  · cases ty with
    | array element size =>
      cases size with
      | none => exact .reporting (carry_of_reports rfl) (inStep_pure rfl)
      | some size => exact inStep_pure rfl
    | _ => exact inStep_pure rfl
  · cases ty with
    | array element size =>
      cases init with
      | initList info elements =>
        simp only [checkInit, VarDecl.relabel, Option.map_some, Expr.relabel, Expr.relabelAll_eq]
        exact inStep_checkArrayInit _ _ _ _ _
      | _ =>
        simp only [checkInit, VarDecl.relabel, Option.map_some, Expr.relabel]
        exact inStep_checkWrongInit _ _ rfl rfl
    | _ =>
      cases init with
      | initList info elements =>
        simp only [checkInit, VarDecl.relabel, Option.map_some, Expr.relabel]
        exact inStep_checkWrongInit _ _ rfl rfl
      | _ =>
        simp only [checkInit, VarDecl.relabel, Option.map_some, Expr.relabel]
        exact inStep_checkScalarInit _ _

theorem reports_voidFault {name : String} {t : Ty} : ∀ f ∈ voidFault? name t, o.reports f = true := by
  unfold voidFault?
  split <;> rintro _ ⟨⟩ <;> rfl

theorem inStep_checkVarDecl (d : VarDecl) :
    StmtInStep r o (VarDecl.relabel r) (checkVarDecl d) (checkVarDecl (d.relabel r)) := by
  refine inStep_get.bind fun before => (inStep_declare d.ident d.binding).bind fun _ => ?_
  have hvoid : voidFault? (d.relabel r).ident.spelling (d.relabel r).ty =
      (voidFault? d.ident.spelling d.ty).map (Fault.relabel r) := voidFault?_relabel r _ _
  have hreports : ∀ f ∈ voidFault? d.ident.spelling d.ty, o.reports f = true := reports_voidFault
  rw [hvoid]
  generalize voidFault? d.ident.spelling d.ty = fault at hreports ⊢
  cases fault with
  | some f =>
    refine .reporting (carry_of_reports (hreports f rfl)) ?_
    exact (inStep_checkOption d.init).bind fun _ => inStep_pure rfl
  | none =>
    refine (inStep_checkInit d).bind fun d => ?_
    exact .modifying (fun _ => rfl) (inStep_pure rfl)

theorem inStep_checkVarDecls (ds : List VarDecl) : StmtInStep r o (List.map (VarDecl.relabel r)) (checkVarDecls ds)
    (checkVarDecls (ds.map (VarDecl.relabel r))) := by
  induction ds with
  | nil => exact inStep_pure rfl
  | cons d ds ih => exact (inStep_checkVarDecl d).bind fun _ => ih.bind fun _ => inStep_pure rfl

/-! ## Statements -/

theorem reports_conditionFault {fault : Ty → Fault} (hf : ∀ t, o.reports (fault t) = true) (t : Ty) :
    ∀ f ∈ conditionFault? fault t, o.reports f = true := by
  unfold conditionFault?
  split_ifs
  · rintro _ ⟨⟩
  · rintro _ ⟨⟩
    exact hf t

theorem inStep_checkCondition {fault : Ty → Fault} (hf : ∀ t, o.reports (fault t) = true)
    (hr : ∀ t, (fault t).relabel r = fault t) (cond : Expr) :
    StmtInStep r o (Expr.relabel r) (checkCondition fault cond) (checkCondition fault (cond.relabel r)) := by
  refine (inStep_onExpr fun env => checksInStep cond env false).bind fun cond => ?_
  have hfault : conditionFault? fault (cond.relabel r).type =
      (conditionFault? fault cond.type).map (Fault.relabel r) := by
    rw [Expr.relabel_type]
    unfold conditionFault?
    split_ifs
    · rfl
    · exact congrArg some (hr _).symm
  rw [Expr.relabel_span]
  exact (inStep_reportOption (reports_conditionFault hf _) hfault _).bind fun _ => inStep_pure rfl

theorem inStep_fillCondition (span : Span) (cond : Option Expr) :
    StmtInStep r o (Expr.relabel r) (fillCondition span cond)
      (fillCondition (r.span span) (cond.map (Expr.relabel r))) := by
  cases cond with
  | some cond => exact inStep_pure rfl
  | none =>
    have hfresh : StmtInStep r o id (onExpr fun _ => freshExpr) (onExpr fun _ => freshExpr) :=
      inStep_onExpr fun _ _ => rfl
    exact hfresh.bind fun _ => inStep_pure rfl

theorem relabel_valueType (value : Option Expr) : valueType (value.map (Expr.relabel r)) = valueType value := by
  cases value with
  | none => rfl
  | some e => exact e.relabel_type

theorem inStep_settleOption {ruling ruling' : Ruling Bool} (h : RulingInStep r o ruling ruling') (span : Span)
    (value : Option Expr) : ExprInStep r o (Option.map (Expr.relabel r)) (settleOption ruling span value)
      (settleOption ruling' (r.span span) (value.map (Expr.relabel r))) := by
  cases value with
  | some e => exact (inStep_settle h span e).map fun _ => rfl
  | none =>
    cases h with
    | reject hf => exact .reporting (carry_of_reports hf) (inStep_pure rfl)
    | accept | silent => exact inStep_pure rfl

theorem inStep_checkReturn (span : Span) (value : Option Expr) :
    StmtInStep r o (Option.map (Expr.relabel r)) (checkReturn span value)
      (checkReturn (r.span span) (value.map (Expr.relabel r))) := by
  refine (inStep_checkOption value).bind fun value => inStep_get.bind fun k => ?_
  have hfunction : (k.relabel r).function = k.function.map (Prototype.relabel r) := rfl
  rw [hfunction, relabel_valueType]
  rcases k.function with _ | f
  · exact inStep_pure rfl
  · refine .ite r.name_eq_main_iff.symm ?_ ?_
    · have hfault : ∀ f ∈ mainReturnFault? (valueType value), o.reports f = true := by
        unfold mainReturnFault?
        split_ifs <;> rintro _ ⟨⟩
        rfl
      refine (inStep_reportOption hfault ?_ span).bind fun _ => inStep_pure rfl
      unfold mainReturnFault?
      split_ifs <;> rfl
    · exact inStep_onExpr fun _ => inStep_settleOption (inStep_storeRuling rfl rfl _ _) span value

theorem inStep_requireLoop {f : Fault} (hf : o.reports f = true) (hr : f.relabel r = f) (span : Span) :
    StmtInStep r o id (requireLoop f span) (requireLoop f (r.span span)) := by
  refine inStep_get.bind fun k => .ite Iff.rfl (inStep_report ?_) (inStep_pure rfl)
  rw [carry_of_reports hf, hr]

/-- A report that the switches leave out. -/
theorem inStep_leaveOut (f : Fault) (h : o.reports f = false) (span : Span) :
    StmtInStep r o id (Check.report f span) (pure ()) := by
  intro k
  have hcarry : carry r o ⟨f, span⟩ = none := if_neg (by rw [h]; exact Bool.false_ne_true)
  simp [hcarry]

theorem inStep_reportUnreachable (s : Stmt) (ss : List Stmt) :
    StmtInStep r o id (reportUnreachable .standard s ss)
      (reportUnreachable o (s.relabel r) (ss.map (Stmt.relabel r))) := by
  cases ss with
  | nil => exact inStep_pure rfl
  | cons next ss =>
    rw [List.map_cons, reportUnreachable, reportUnreachable, Stmt.relabel_isReturn, Stmt.relabel_span]
    cases s.isReturn with
    | false => exact inStep_pure rfl
    | true =>
      cases hswitch : o.reportUnreachable with
      | true => exact inStep_report (carry_of_reports hswitch)
      | false => exact inStep_leaveOut .statementNotReached hswitch next.span

/-- The check of a statement goes the same way, whichever switches the second one has. -/
def ChecksStmtInStep (r : Relabelling) (o : Options) (s : Stmt) : Prop :=
  StmtInStep r o (Stmt.relabel r) (checkStmt .standard s) (checkStmt o (s.relabel r))

theorem inStep_checkStmts_of {ss : List Stmt} (h : ∀ s ∈ ss, ChecksStmtInStep r o s) :
    StmtInStep r o (List.map (Stmt.relabel r)) (checkStmts .standard ss) (checkStmts o (ss.map (Stmt.relabel r))) := by
  induction ss with
  | nil => exact inStep_pure rfl
  | cons s ss ih =>
    rw [List.forall_mem_cons] at h
    refine h.1.bind fun _ => (inStep_reportUnreachable s ss).bind fun _ => ?_
    exact (ih h.2).bind fun _ => inStep_pure rfl

theorem checksStmtInStep (s : Stmt) : ChecksStmtInStep r o s := by
  induction s using Stmt.induct with
  | compound info decls stmts ih =>
    unfold ChecksStmtInStep
    rw [Stmt.relabel, Stmt.relabelAll_eq, checkStmt, checkStmt]
    refine inStep_openScope.bind fun _ => (inStep_checkVarDecls decls).bind fun _ => ?_
    refine (inStep_checkStmts_of ih).bind fun _ => inStep_closeScope.bind fun _ => inStep_pure ?_
    rw [Stmt.relabel, Stmt.relabelAll_eq]
  | ifThen info cond thenBranch ih =>
    refine (inStep_checkCondition (fun _ => rfl) (fun _ => rfl) cond).bind fun _ => ?_
    exact ih.bind fun _ => inStep_pure rfl
  | ifElse info cond thenBranch elseBranch ihThen ihElse =>
    refine (inStep_checkCondition (fun _ => rfl) (fun _ => rfl) cond).bind fun _ => ?_
    exact ihThen.bind fun _ => ihElse.bind fun _ => inStep_pure rfl
  | whileStmt info cond body ih =>
    refine inStep_enterLoop.bind fun _ => ?_
    refine (inStep_checkCondition (fun _ => rfl) (fun _ => rfl) cond).bind fun _ => ih.bind fun _ => ?_
    exact inStep_leaveLoop.bind fun _ => inStep_pure rfl
  | forStmt info init cond update body ih =>
    refine inStep_enterLoop.bind fun _ => (inStep_checkOption init).bind fun _ => ?_
    refine (inStep_fillCondition info.span cond).bind fun cond => ?_
    refine (inStep_checkCondition (fun _ => rfl) (fun _ => rfl) cond).bind fun _ => ?_
    refine (inStep_checkOption update).bind fun _ => ih.bind fun _ => ?_
    exact inStep_leaveLoop.bind fun _ => inStep_pure rfl
  | breakStmt info => exact (inStep_requireLoop rfl rfl info.span).bind fun _ => inStep_pure rfl
  | continueStmt info => exact (inStep_requireLoop rfl rfl info.span).bind fun _ => inStep_pure rfl
  | returnStmt info value => exact (inStep_checkReturn info.span value).bind fun _ => inStep_pure rfl
  | exprStmt info expr =>
    exact (inStep_onExpr fun env => checksInStep expr env true).bind fun _ => inStep_pure rfl
  | emptyStmt info => exact inStep_pure rfl

/-! ## Programs -/

theorem inStep_checkParam (p : Param) : StmtInStep r o id (checkParam p) (checkParam (p.relabel r)) :=
  (inStep_declare p.ident p.binding).bind fun _ => inStep_reportOption reports_voidFault (voidFault?_relabel r _ _) _

theorem inStep_checkParams (ps : List Param) :
    StmtInStep r o id (checkParams ps) (checkParams (ps.map (Param.relabel r))) := by
  induction ps with
  | nil => exact inStep_pure rfl
  | cons p ps ih => exact (inStep_checkParam p).bind fun _ => ih

theorem inStep_checkBody (b : Block) :
    StmtInStep r o (Block.relabel r) (checkBody .standard b) (checkBody o (b.relabel r)) := by
  refine (inStep_checkVarDecls b.decls).bind fun _ => ?_
  exact (inStep_checkStmts_of fun s _ => checksStmtInStep s).bind fun _ => inStep_pure rfl

theorem inStep_missingReturn (ret : Ty) (hasReturn : Bool) (span : Span) :
    StmtInStep r o id (reportOption (missingReturn? .standard ret hasReturn) span)
      (reportOption (missingReturn? o ret hasReturn) (r.span span)) := by
  unfold missingReturn?
  cases ret.isVoid <;> cases hasReturn <;> cases hswitch : o.reportMissingReturn <;> first
    | exact inStep_pure rfl
    | exact inStep_report (carry_of_reports hswitch)
    | exact inStep_leaveOut .missingReturn hswitch span

theorem inStep_checkFunction (f : Function) :
    StmtInStep r o (Function.relabel r) (checkFunction .standard f) (checkFunction o (f.relabel r)) := by
  have hbinding : (f.relabel r).binding = f.binding := f.toPrototype.relabel_binding
  unfold checkFunction
  rw [hbinding]
  refine (inStep_declare f.ident f.binding).bind fun _ => inStep_openScope.bind fun _ => ?_
  refine inStep_get.bind fun k => .modifying (fun _ => rfl) ?_
  refine (inStep_checkParams f.params).bind fun _ => (inStep_checkBody f.body).bind fun body => ?_
  have hreturns : (body.relabel r).toStmt.alwaysReturns = body.toStmt.alwaysReturns := by
    rw [body.relabel_toStmt, Stmt.relabel_alwaysReturns]
  dsimp only
  rw [hreturns]
  refine (inStep_missingReturn f.ty body.toStmt.alwaysReturns f.span).bind fun _ => ?_
  exact .modifying (fun _ => rfl) (inStep_closeScope.bind fun _ => inStep_pure rfl)

theorem inStep_checkTopDecls (ds : List TopDecl) : StmtInStep r o (List.map (TopDecl.relabel r))
    (checkTopDecls .standard ds) (checkTopDecls o (ds.map (TopDecl.relabel r))) := by
  induction ds with
  | nil => exact inStep_pure rfl
  | cons d ds ih =>
    have hdecl : StmtInStep r o (TopDecl.relabel r) (checkTopDecl .standard d) (checkTopDecl o (d.relabel r)) := by
      cases d with
      | func f => exact (inStep_checkFunction f).map fun _ => rfl
      | var d => exact (inStep_checkVarDecl d).map fun _ => rfl
    exact hdecl.bind fun _ => ih.bind fun _ => inStep_pure rfl

theorem relabel_mainFault (env : Env) : mainFault? (env.renamed r.name) = (mainFault? env).map (Fault.relabel r) := by
  have hmain : (env.renamed r.name).retrieve "main" = env.retrieve "main" := by
    have hname := Scopes.retrieve_renamed r.name_injective env "main"
    rwa [r.name_main] at hname
  unfold mainFault?
  rw [hmain]
  split
  · split_ifs <;> rfl
  · rfl

theorem reports_mainFault {env : Env} : ∀ f ∈ mainFault? env, o.reports f = true := by
  unfold mainFault?
  split
  · split_ifs <;> rintro _ ⟨⟩
    rfl
  · rintro _ ⟨⟩
    rfl

theorem inStep_checkDecls (p : Program) : StmtInStep r o (List.map (TopDecl.relabel r)) (checkDecls .standard p)
    (checkDecls o (p.relabel r)) := by
  refine (inStep_checkTopDecls p.decls).bind fun _ => inStep_get.bind fun k => ?_
  exact (inStep_reportOption reports_mainFault (relabel_mainFault k.env) p.span).bind fun _ => inStep_pure rfl

/-- The names of the predeclared functions stay. -/
theorem renamed_bindAll {es : List Library.Entry} (h : ∀ e ∈ es, r.name e.name = e.name) (first : Nat) (env : Env) :
    (Library.bindAll env (Library.number first es)).renamed r.name =
      Library.bindAll (env.renamed r.name) (Library.number first es) := by
  induction es generalizing first env with
  | nil => rfl
  | cons e es ih =>
    rw [List.forall_mem_cons] at h
    have hinsert (b : Binding) : (env.insert e.name b).renamed r.name = (env.renamed r.name).insert e.name b := by
      rw [← Scopes.insert_renamed, h.1]
    rw [Library.number, Library.bindAll, Library.bindAll, List.foldl_cons, List.foldl_cons]
    refine (ih h.2 _ _).trans ?_
    exact congrArg (Library.bindAll · _) (hinsert _)

theorem initial_relabel (p : Program) : Checker.initial (p.relabel r) = (Checker.initial p).relabel r := by
  have hprototypes : Library.prototypesFor (p.relabel r) = Library.prototypesFor p := by
    rw [Library.prototypesFor, Library.prototypesFor, p.relabel_declCount]
  have henv : (Library.bindAll .empty (Library.prototypesFor p)).renamed r.name =
      Library.bindAll .empty (Library.prototypesFor p) := renamed_bindAll r.name_library _ _
  rw [Checker.initial, Checker.initial, Checker.relabel, hprototypes, henv, p.relabel_exprCount]
  rfl

end Typing

open Typing

/-- The check of a relabelled program, with any switches, makes of it what the check of the program with all of them on
makes of that, relabelled, and reports what this one does, relabelled, as far as the switches allow. -/
theorem check_carry (r : Relabelling) (o : Options) (p : Program) :
    check o (p.relabel r) = ((check .standard p).1.relabel r, (check .standard p).2.filterMap (carry r o)) := by
  have hstep := inStep_checkDecls (r := r) (o := o) p (.initial p)
  have hadd : Library.addTo (p.relabel r) = (Library.addTo p).relabel r := by
    rw [Library.addTo, Library.addTo, Library.prototypesFor, Library.prototypesFor, p.relabel_declCount]
    rfl
  rw [← initial_relabel] at hstep
  rw [check, check, hstep, hadd]
  rfl

theorem filterMap_carry (r : Relabelling) (o : Options) (errors : List Error) :
    errors.filterMap (carry r o) = (errors.filter fun e => o.reports e.fault).map (Error.relabel r) := by
  have hcarry : carry r o = fun e => (Option.guard (fun e => o.reports e.fault) e).map (Error.relabel r) := by
    funext e
    rw [carry, Option.guard]
    split_ifs <;> rfl
  rw [hcarry, ← List.map_filterMap, List.filterMap_eq_filter]

theorem Fault.relabel_identity (f : Fault) : f.relabel .identity = f := by cases f <;> rfl

/-- A check with some switches, by the check with all of them on. -/
theorem check_options (o : Options) (p : Program) :
    check o p = ((check .standard p).1, (check .standard p).2.filter fun e => o.reports e.fault) := by
  have hcarry := check_carry .identity o p
  have herror (e : Error) : e.relabel .identity = e := congrArg (Error.mk · e.span) e.fault.relabel_identity
  rw [p.relabel_identity, Program.relabel_identity, filterMap_carry] at hcarry
  rw [hcarry, map_of_fixed fun e _ => herror e]

/-- A check is the same for a relabelled program, relabelled. -/
theorem check_relabel (r : Relabelling) (o : Options) (p : Program) :
    check o (p.relabel r) = ((check o p).1.relabel r, (check o p).2.map (Error.relabel r)) := by
  rw [check_carry, check_options o p, filterMap_carry]

/-- The switches decide on reports alone: a check makes the same of a program whatever they are, and reports what a
check with all of them on does, in the same order, without the faults that are switched off. -/
theorem check_switches (options : Options) (p : Program) : (check options p).1 = (check .standard p).1 ∧
    (check options p).2 = (check .standard p).2.filter fun e => options.reports e.fault := by
  rw [check_options options p]
  exact ⟨rfl, rfl⟩

end VCLang
