/-
What a check reports are faults of the meaning. So the numbers that are read back from the messages of a
compilation are those of its faults of the meaning, unless the text of an unterminated string begins like a number:
its message is read back with that.
-/
import VCLang.Proofs.Diagnostic.Numbers
import VCLang.Proofs.Grammar.Reports
import VCLang.Proofs.Tree.Source
namespace VCLang

/-- The faults that are in the catalog. -/
def Fault.OfMeaning (f : Fault) : Prop := f.number?.isSome = true

/-- A rule that says nothing or names a fault of the meaning. -/
theorem ofMeaning_unless {c : Prop} [Decidable c] (f : Fault) (hf : f.OfMeaning) :
    ∀ g ∈ (if c then none else some f), g.OfMeaning := by
  split_ifs
  · rintro _ ⟨⟩
  · rintro _ ⟨⟩
    exact hf

/-- A check reports faults of the meaning, whatever the state it begins with. -/
def Check.ReportsMeaning {σ α : Type} (m : Check σ α) : Prop := ∀ s, ∀ e ∈ (m s).errors, e.fault.OfMeaning

namespace Check

variable {σ α β : Type} {m : Check σ α}

theorem reportsMeaning_of_silent (h : ∀ s, (m s).errors = []) : m.ReportsMeaning := by
  intro s e he
  rw [h s] at he
  cases he

theorem reportsMeaning_pure (a : α) : (pure a : Check σ α).ReportsMeaning := reportsMeaning_of_silent fun _ => rfl

theorem reportsMeaning_get : (get : Check σ σ).ReportsMeaning := reportsMeaning_of_silent fun _ => rfl

theorem reportsMeaning_modify (f : σ → σ) : (modify f).ReportsMeaning := reportsMeaning_of_silent fun _ => rfl

theorem reportsMeaning_report {f : Fault} {span : Span} (hf : f.OfMeaning) :
    (report f span : Check σ Unit).ReportsMeaning := by
  intro s e he
  rw [List.mem_singleton.1 he]
  exact hf

theorem reportsMeaning_reportOption {f : Option Fault} {span : Span} (hf : ∀ g ∈ f, g.OfMeaning) :
    (reportOption f span : Check σ Unit).ReportsMeaning := by
  cases f with
  | none => exact reportsMeaning_pure ()
  | some f => exact reportsMeaning_report (hf f rfl)

theorem ReportsMeaning.bind {f : α → Check σ β} (hm : m.ReportsMeaning) (hf : ∀ a, (f a).ReportsMeaning) :
    (m >>= f).ReportsMeaning := by
  intro s e he
  rcases List.mem_append.1 he with he | he
  · exact hm s e he
  · exact hf _ _ e he

theorem ReportsMeaning.map {f : α → β} (hm : m.ReportsMeaning) : (f <$> m).ReportsMeaning := by
  rw [map_eq_pure_bind]
  exact hm.bind fun _ => reportsMeaning_pure _

theorem ReportsMeaning.ite {c : Prop} [Decidable c] {m' : Check σ α} (hm : m.ReportsMeaning)
    (hm' : m'.ReportsMeaning) : (if c then m else m').ReportsMeaning := by
  split_ifs
  · exact hm
  · exact hm'

/-- A report in front of a check. -/
theorem ReportsMeaning.reporting {f : Fault} {span : Span} (hf : f.OfMeaning) (hm : m.ReportsMeaning) :
    (report f span >>= fun _ => m).ReportsMeaning :=
  (reportsMeaning_report hf).bind fun _ => hm

end Check

namespace Typing

open Check

variable {env : Env} {info : ExprInfo} {ident : Ident}

/-! ## Expressions -/

theorem reportsMeaning_widenIf (needed : Bool) (e : Expr) : (widenIf needed e).ReportsMeaning := by
  have hfresh : freshExpr.ReportsMeaning := reportsMeaning_of_silent fun _ => rfl
  exact .ite (hfresh.bind fun _ => reportsMeaning_pure _) (reportsMeaning_pure e)

/-- A ruling that rejects does so with a fault of the meaning. -/
def RejectsMeaning {α : Type} (r : Ruling α) : Prop := ∀ f ∈ r.fault?, f.OfMeaning

theorem rejectsMeaning_storeRuling (f : Fault) (hf : f.OfMeaning) (target value : Ty) :
    RejectsMeaning (storeRuling f target value) := by
  unfold storeRuling
  split_ifs
  · rintro _ ⟨⟩
  · rintro _ ⟨⟩
    exact hf

theorem rejectsMeaning_argumentRuling (param arg : Ty) : RejectsMeaning (argumentRuling param arg) := by
  unfold argumentRuling
  split_ifs
  · rintro _ ⟨⟩
  · rintro _ ⟨⟩
    rfl

theorem rejectsMeaning_assignRuling (target value : Ty) (name : String) :
    RejectsMeaning (assignRuling target value name) := by
  unfold assignRuling
  split_ifs
  · rintro _ ⟨⟩
    rfl
  · rintro _ ⟨⟩
    rfl
  · exact rejectsMeaning_storeRuling .incompatibleAssignment rfl target value

theorem rejectsMeaning_unaryRuling (op : String) (operand : Ty) : RejectsMeaning (unaryRuling op operand) := by
  unfold unaryRuling
  split <;> try split_ifs
  all_goals
    rintro _ ⟨⟩
    try rfl

theorem rejectsMeaning_binaryRuling (op : String) (left right : Ty) (leftName rightName : String) :
    RejectsMeaning (binaryRuling op left right leftName rightName) := by
  unfold binaryRuling
  split_ifs <;> try split
  all_goals
    rintro _ ⟨⟩
    try rfl

theorem reportsMeaning_settle {r : Ruling Bool} {span : Span} {e : Expr} (h : RejectsMeaning r) :
    (settle r span e).ReportsMeaning := by
  cases r with
  | accept needed => exact reportsMeaning_widenIf needed e
  | reject f => exact .reporting (h f rfl) (reportsMeaning_pure e)
  | silent => exact reportsMeaning_pure e

theorem reportsMeaning_checkVar (env : Env) (whole : Bool) (info : ExprInfo) (ident : Ident) :
    (checkVar env whole info ident).ReportsMeaning := by
  unfold checkVar
  split
  · exact .reporting rfl (reportsMeaning_pure _)
  split
  · exact reportsMeaning_pure _
  · exact .ite (reportsMeaning_pure _) (.reporting rfl (reportsMeaning_pure _))

theorem reportsMeaning_checkAccess (env : Env) (info : ExprInfo) (ident : Ident) (index : Expr) :
    (checkAccess env info ident index).ReportsMeaning := by
  unfold checkAccess
  split
  · exact .reporting rfl (reportsMeaning_pure _)
  split
  · exact .reporting rfl (reportsMeaning_pure _)
  split
  · exact reportsMeaning_pure _
  · rename_i hfault
    exact .reporting (ofMeaning_unless .subscriptNotInteger rfl _ hfault) (reportsMeaning_pure _)

theorem reportsMeaning_finishUnary (info : ExprInfo) (op : Operator) (operand : Expr) :
    (finishUnary info op operand).ReportsMeaning := by
  have hruling := rejectsMeaning_unaryRuling op.spelling operand.type
  unfold finishUnary
  split
  · exact reportsMeaning_pure _
  · rename_i hreject
    exact .reporting (hruling _ (by rw [hreject]; rfl)) (reportsMeaning_pure _)
  · exact reportsMeaning_pure _

theorem reportsMeaning_finishBinary (info : ExprInfo) (op : Operator) (left right : Expr) :
    (finishBinary info op left right).ReportsMeaning := by
  have hruling := rejectsMeaning_binaryRuling op.spelling left.type right.type left.name right.name
  unfold finishBinary
  split
  · exact (reportsMeaning_widenIf _ _).bind fun _ => (reportsMeaning_widenIf _ _).bind fun _ => reportsMeaning_pure _
  · rename_i hreject
    exact .reporting (hruling _ (by rw [hreject]; rfl)) (reportsMeaning_pure _)
  · exact reportsMeaning_pure _

theorem reportsMeaning_finishAssign (info : ExprInfo) (target value : Expr) :
    (finishAssign info target value).ReportsMeaning := by
  have hruling := rejectsMeaning_assignRuling target.type value.type value.name
  unfold finishAssign
  split
  · exact (reportsMeaning_widenIf _ _).bind fun _ => reportsMeaning_pure _
  · rename_i hreject
    exact .reporting (hruling _ (by rw [hreject]; rfl)) (reportsMeaning_pure _)
  · exact reportsMeaning_pure _

/-- The check of an expression reports faults of the meaning, wherever it stands. -/
def ExprReportsMeaning (e : Expr) : Prop := ∀ env whole, (checkExpr env whole e).ReportsMeaning

theorem reportsMeaning_checkAll_of {es : List Expr} (h : ∀ e ∈ es, ExprReportsMeaning e) (env : Env) :
    (checkAll env es).ReportsMeaning := by
  induction es with
  | nil => exact reportsMeaning_pure []
  | cons e es ih =>
    rw [List.forall_mem_cons] at h
    exact (h.1 env false).bind fun _ => (ih h.2).bind fun _ => reportsMeaning_pure _

theorem reportsMeaning_checkArgs_of {es : List Expr} (h : ∀ e ∈ es, ExprReportsMeaning e) (env : Env)
    (params : List Ty) : (checkArgs env params es).ReportsMeaning := by
  induction es generalizing params with
  | nil =>
    unfold checkArgs
    exact reportsMeaning_pure []
  | cons e es ih =>
    rw [List.forall_mem_cons] at h
    cases params with
    | nil =>
      refine (h.1 env false).bind fun _ => .reporting rfl ?_
      exact (reportsMeaning_checkAll_of h.2 env).bind fun _ => reportsMeaning_pure _
    | cons param params =>
      refine (h.1 env false).bind fun _ => ?_
      refine (reportsMeaning_settle (rejectsMeaning_argumentRuling _ _)).bind fun _ => ?_
      exact (ih h.2 params).bind fun _ => reportsMeaning_pure _

theorem reportsMeaning_call {args : List Expr} (h : ∀ e ∈ args, ExprReportsMeaning e) :
    ExprReportsMeaning (.call info ident args) := by
  intro env whole
  have hall {build : List Expr → Expr} : (checkAll env args >>= fun args => pure (build args)).ReportsMeaning :=
    (reportsMeaning_checkAll_of h env).bind fun _ => reportsMeaning_pure _
  rw [checkExpr]
  refine .ite (.reporting rfl hall) ?_
  split
  · exact .reporting rfl hall
  split
  · exact .reporting rfl hall
  · refine (reportsMeaning_checkArgs_of h env _).bind fun _ => .ite ?_ (reportsMeaning_pure _)
    exact .reporting rfl (reportsMeaning_pure _)

theorem exprReportsMeaning (e : Expr) : ExprReportsMeaning e := by
  induction e using Expr.induct with
  | literal info value => exact fun _ _ => reportsMeaning_pure _
  | var info ident => exact fun env whole => reportsMeaning_checkVar env whole info ident
  | arrayAccess info ident index ih =>
    exact fun env _ => (ih env false).bind fun index => reportsMeaning_checkAccess env info ident index
  | call info ident args ih => exact reportsMeaning_call ih
  | unary info op operand ih =>
    exact fun env _ => (ih env false).bind fun operand => reportsMeaning_finishUnary info op operand
  | binary info op left right ihLeft ihRight =>
    intro env whole
    refine (ihLeft env false).bind fun left => (ihRight env false).bind fun right => ?_
    exact reportsMeaning_finishBinary info op left right
  | assign info target value ihTarget ihValue =>
    intro env whole
    rw [checkExpr]
    refine .ite ?_ (.reporting rfl ?_)
    · refine (ihTarget env false).bind fun target => (ihValue env false).bind fun value => ?_
      exact reportsMeaning_finishAssign info target value
    · exact (ihTarget env false).bind fun _ => (ihValue env false).bind fun _ => reportsMeaning_pure _
  | initList info elements ih =>
    exact fun env _ => (reportsMeaning_checkAll_of ih env).bind fun _ => reportsMeaning_pure _
  | intToFloat info operand ih => exact fun env _ => (ih env false).bind fun _ => reportsMeaning_pure _

theorem reportsMeaning_checkElements (env : Env) (element : Ty) (es : List Expr) :
    (checkElements env element es).ReportsMeaning := by
  induction es with
  | nil => exact reportsMeaning_pure []
  | cons e es ih =>
    refine (exprReportsMeaning e env false).bind fun _ => ?_
    refine (reportsMeaning_settle (rejectsMeaning_storeRuling .wrongInitialiserElement rfl _ _)).bind fun _ => ?_
    exact ih.bind fun _ => reportsMeaning_pure _

/-! ## Variables -/

theorem reportsMeaning_onExpr {α : Type} {m : Env → Check Nat α} (h : ∀ env, (m env).ReportsMeaning) :
    (onExpr m).ReportsMeaning :=
  fun k e he => h k.env k.nextExpr e he

theorem reportsMeaning_checkOption (o : Option Expr) : (checkOption o).ReportsMeaning := by
  cases o with
  | none => exact reportsMeaning_pure none
  | some e => exact (reportsMeaning_onExpr fun env => exprReportsMeaning e env false).bind fun _ => reportsMeaning_pure _

theorem reportsMeaning_declare (ident : Ident) (b : Binding) : (declare ident b).ReportsMeaning := by
  refine reportsMeaning_get.bind fun _ => .ite ?_ (reportsMeaning_modify _)
  exact .reporting rfl (reportsMeaning_modify _)

theorem ofMeaning_voidFault {name : String} {t : Ty} : ∀ f ∈ voidFault? name t, f.OfMeaning := by
  unfold voidFault?
  split <;> rintro _ ⟨⟩ <;> rfl

theorem reportsMeaning_checkWrongInit (d : VarDecl) (init : Expr) {f : Fault} (hf : f.OfMeaning) :
    (checkWrongInit d init f).ReportsMeaning := by
  refine (reportsMeaning_onExpr fun env => exprReportsMeaning init env false).bind fun _ => ?_
  exact .reporting hf (reportsMeaning_pure _)

theorem reportsMeaning_checkScalarInit (d : VarDecl) (init : Expr) : (checkScalarInit d init).ReportsMeaning := by
  refine (reportsMeaning_onExpr fun env => ?_).bind fun _ => reportsMeaning_pure _
  refine (exprReportsMeaning init env false).bind fun _ => ?_
  exact reportsMeaning_settle (rejectsMeaning_storeRuling .incompatibleAssignment rfl _ _)

theorem reportsMeaning_checkArrayInit (d : VarDecl) (element : Ty) (size : Option Nat) (info : ExprInfo)
    (elements : List Expr) : (checkArrayInit d element size info elements).ReportsMeaning := by
  refine (reportsMeaning_onExpr fun env => reportsMeaning_checkElements env element elements).bind fun _ => ?_
  exact .ite (.reporting rfl (reportsMeaning_pure _)) (reportsMeaning_pure _)

theorem reportsMeaning_checkInit (d : VarDecl) : (checkInit d).ReportsMeaning := by
  unfold checkInit
  split
  · exact .reporting rfl (reportsMeaning_pure _)
  · exact reportsMeaning_pure _
  · exact reportsMeaning_checkArrayInit d _ _ _ _
  · exact reportsMeaning_checkWrongInit d _ rfl
  · exact reportsMeaning_checkWrongInit d _ rfl
  · exact reportsMeaning_checkScalarInit d _

theorem reportsMeaning_checkVarDecl (d : VarDecl) : (checkVarDecl d).ReportsMeaning := by
  refine reportsMeaning_get.bind fun _ => (reportsMeaning_declare _ _).bind fun _ => ?_
  split
  · rename_i hvoid
    refine .reporting (ofMeaning_voidFault _ hvoid) ?_
    exact (reportsMeaning_checkOption _).bind fun _ => reportsMeaning_pure _
  · exact (reportsMeaning_checkInit d).bind fun _ => (reportsMeaning_modify _).bind fun _ => reportsMeaning_pure _

theorem reportsMeaning_checkVarDecls (ds : List VarDecl) : (checkVarDecls ds).ReportsMeaning := by
  induction ds with
  | nil => exact reportsMeaning_pure []
  | cons d ds ih => exact (reportsMeaning_checkVarDecl d).bind fun _ => ih.bind fun _ => reportsMeaning_pure _

/-! ## Statements -/

theorem reportsMeaning_checkCondition (fault : Ty → Fault) (hf : ∀ t, (fault t).OfMeaning) (cond : Expr) :
    (checkCondition fault cond).ReportsMeaning := by
  refine (reportsMeaning_onExpr fun env => exprReportsMeaning cond env false).bind fun cond => ?_
  exact (reportsMeaning_reportOption (ofMeaning_unless _ (hf _))).bind fun _ => reportsMeaning_pure _

theorem reportsMeaning_fillCondition (span : Span) (cond : Option Expr) :
    (fillCondition span cond).ReportsMeaning := by
  cases cond with
  | none =>
    refine (reportsMeaning_onExpr fun _ => ?_).bind fun _ => reportsMeaning_pure _
    exact reportsMeaning_of_silent fun _ => rfl
  | some cond => exact reportsMeaning_pure cond

theorem reportsMeaning_settleOption {r : Ruling Bool} {span : Span} (h : RejectsMeaning r) (o : Option Expr) :
    (settleOption r span o).ReportsMeaning := by
  cases o with
  | none => exact (reportsMeaning_reportOption h).bind fun _ => reportsMeaning_pure none
  | some e => exact (reportsMeaning_settle h).map

theorem reportsMeaning_checkReturn (span : Span) (value : Option Expr) : (checkReturn span value).ReportsMeaning := by
  refine (reportsMeaning_checkOption value).bind fun value => reportsMeaning_get.bind fun k => ?_
  split
  · exact reportsMeaning_pure value
  refine .ite ?_ ?_
  · exact (reportsMeaning_reportOption (ofMeaning_unless .mainNotInt rfl)).bind fun _ => reportsMeaning_pure value
  · refine reportsMeaning_onExpr fun _ => ?_
    exact reportsMeaning_settleOption (rejectsMeaning_storeRuling .incompatibleReturn rfl _ _) value

theorem reportsMeaning_requireLoop (f : Fault) (span : Span) (hf : f.OfMeaning) :
    (requireLoop f span).ReportsMeaning :=
  reportsMeaning_get.bind fun _ => .ite (reportsMeaning_report hf) (reportsMeaning_pure ())

theorem reportsMeaning_reportUnreachable (options : Options) (s : Stmt) (ss : List Stmt) :
    (reportUnreachable options s ss).ReportsMeaning := by
  cases ss with
  | nil => exact reportsMeaning_pure ()
  | cons next ss => exact .ite (reportsMeaning_report rfl) (reportsMeaning_pure ())

theorem reportsMeaning_checkStmts_of {options : Options} {ss : List Stmt}
    (h : ∀ s ∈ ss, (checkStmt options s).ReportsMeaning) : (checkStmts options ss).ReportsMeaning := by
  induction ss with
  | nil => exact reportsMeaning_pure []
  | cons s ss ih =>
    rw [List.forall_mem_cons] at h
    refine h.1.bind fun _ => (reportsMeaning_reportUnreachable options s ss).bind fun _ => ?_
    exact (ih h.2).bind fun _ => reportsMeaning_pure _

theorem reportsMeaning_checkStmt (options : Options) (s : Stmt) : (checkStmt options s).ReportsMeaning := by
  induction s using Stmt.induct with
  | compound info decls stmts ih =>
    refine (reportsMeaning_modify _).bind fun _ => (reportsMeaning_checkVarDecls decls).bind fun _ => ?_
    refine (reportsMeaning_checkStmts_of ih).bind fun _ => (reportsMeaning_modify _).bind fun _ => ?_
    exact reportsMeaning_pure _
  | ifThen info cond thenBranch ih =>
    refine (reportsMeaning_checkCondition .ifConditionNotBoolean (fun _ => rfl) cond).bind fun _ => ih.bind fun _ => ?_
    exact reportsMeaning_pure _
  | ifElse info cond thenBranch elseBranch ihThen ihElse =>
    refine (reportsMeaning_checkCondition .ifConditionNotBoolean (fun _ => rfl) cond).bind fun _ => ihThen.bind fun _ => ?_
    exact ihElse.bind fun _ => reportsMeaning_pure _
  | whileStmt info cond body ih =>
    refine (reportsMeaning_modify _).bind fun _ => ?_
    refine (reportsMeaning_checkCondition .whileConditionNotBoolean (fun _ => rfl) cond).bind fun _ => ih.bind fun _ => ?_
    exact (reportsMeaning_modify _).bind fun _ => reportsMeaning_pure _
  | forStmt info init cond update body ih =>
    refine (reportsMeaning_modify _).bind fun _ => (reportsMeaning_checkOption init).bind fun _ => ?_
    refine (reportsMeaning_fillCondition _ cond).bind fun cond => ?_
    refine (reportsMeaning_checkCondition .forConditionNotBoolean (fun _ => rfl) cond).bind fun _ => ?_
    refine (reportsMeaning_checkOption update).bind fun _ => ih.bind fun _ => ?_
    exact (reportsMeaning_modify _).bind fun _ => reportsMeaning_pure _
  | breakStmt info => exact (reportsMeaning_requireLoop .breakOutsideLoop _ rfl).bind fun _ => reportsMeaning_pure _
  | continueStmt info =>
    exact (reportsMeaning_requireLoop .continueOutsideLoop _ rfl).bind fun _ => reportsMeaning_pure _
  | returnStmt info value => exact (reportsMeaning_checkReturn _ value).bind fun _ => reportsMeaning_pure _
  | exprStmt info expr =>
    exact (reportsMeaning_onExpr fun env => exprReportsMeaning expr env true).bind fun _ => reportsMeaning_pure _
  | emptyStmt info => exact reportsMeaning_pure _

/-! ## Functions and programs -/

theorem reportsMeaning_checkParams (ps : List Param) : (checkParams ps).ReportsMeaning := by
  induction ps with
  | nil => exact reportsMeaning_pure ()
  | cons p ps ih =>
    refine ReportsMeaning.bind ?_ fun _ => ih
    exact (reportsMeaning_declare _ _).bind fun _ => reportsMeaning_reportOption ofMeaning_voidFault

theorem reportsMeaning_checkFunction (options : Options) (f : Function) :
    (checkFunction options f).ReportsMeaning := by
  have hbody : (checkBody options f.body).ReportsMeaning := by
    refine (reportsMeaning_checkVarDecls _).bind fun _ => ?_
    refine (reportsMeaning_checkStmts_of fun s _ => reportsMeaning_checkStmt options s).bind fun _ => ?_
    exact reportsMeaning_pure _
  have hreturn (hasReturn : Bool) : ∀ g ∈ missingReturn? options f.ty hasReturn, g.OfMeaning := by
    unfold missingReturn?
    split_ifs
    · rintro _ ⟨⟩
      rfl
    · rintro _ ⟨⟩
  refine (reportsMeaning_declare _ _).bind fun _ => (reportsMeaning_modify _).bind fun _ => ?_
  refine reportsMeaning_get.bind fun _ => (reportsMeaning_modify _).bind fun _ => ?_
  refine (reportsMeaning_checkParams _).bind fun _ => hbody.bind fun _ => ?_
  refine (reportsMeaning_reportOption (hreturn _)).bind fun _ => (reportsMeaning_modify _).bind fun _ => ?_
  exact (reportsMeaning_modify _).bind fun _ => reportsMeaning_pure _

theorem reportsMeaning_checkTopDecls (options : Options) (ds : List TopDecl) :
    (checkTopDecls options ds).ReportsMeaning := by
  induction ds with
  | nil => exact reportsMeaning_pure []
  | cons d ds ih =>
    refine ReportsMeaning.bind ?_ fun _ => ih.bind fun _ => reportsMeaning_pure _
    cases d with
    | func f => exact (reportsMeaning_checkFunction options f).map
    | var d => exact (reportsMeaning_checkVarDecl d).map

theorem reportsMeaning_checkDecls (options : Options) (p : Program) : (checkDecls options p).ReportsMeaning := by
  refine (reportsMeaning_checkTopDecls options p.decls).bind fun _ => reportsMeaning_get.bind fun k => ?_
  refine (reportsMeaning_reportOption ?_).bind fun _ => reportsMeaning_pure _
  unfold mainFault?
  split
  · exact ofMeaning_unless .mainNotInt rfl
  · rintro _ ⟨⟩
    rfl

end Typing

/-- What a check of a program reports are faults of the meaning. -/
theorem check_reportsMeaning (options : Typing.Options) (p : Program) :
    ∀ e ∈ (check options p).2, e.fault.OfMeaning :=
  Typing.reportsMeaning_checkDecls options p (.initial p)

/-! ## What is read back -/

/-- What can be reported: a fault of the characters of a text, of one of its tokens, or of the meaning. -/
inductive Fault.Of (source : String) (f : Fault) : Prop
  | lexical : f.Lexical → Of source f
  | token {t : Token} : t ∈ (tokenize source).1 → f.Concerns t → Of source f
  | meaning : f.OfMeaning → Of source f

theorem fault_of_parse {source : String} : ∀ e ∈ (parse source).errors, e.fault.Of source := by
  have hreports := parseReports source
  generalize parse source = parsed at hreports
  intro e he
  cases hreports with
  | ok =>
    obtain ⟨l, hl, he⟩ := List.mem_flatMap.1 he
    exact .lexical (lexemes_lexical source l hl e he)
  | @error scanned rest l f htext hconcerns =>
    rcases List.mem_append.1 he with he | he
    · obtain ⟨l', hl, he⟩ := List.mem_flatMap.1 he
      refine .lexical (lexemes_lexical source l' ?_ e he)
      rw [htext, ← List.singleton_append, ← List.append_assoc]
      exact List.mem_append_left rest hl
    · rw [List.mem_singleton.1 he]
      refine .token (List.mem_map_of_mem (f := Lexeme.token) ?_) hconcerns
      rw [htext]
      simp

theorem fault_of_compile {options : Typing.Options} {source : String} :
    ∀ e ∈ (compile options source).errors, e.fault.Of source := by
  have hparse := @fault_of_parse source
  unfold compile
  generalize parse source = parsed at hparse ⊢
  rcases parsed with ⟨e | p, errors⟩
  · exact hparse
  · intro e he
    rcases List.mem_append.1 he with he | he
    · exact hparse e he
    · exact .meaning (check_reportsMeaning options p e he)

/-- The number that the message of a fault is read back with. -/
def Fault.readBack? : Fault → Option Nat
  | unterminatedString spelling => misread? spelling
  | f => f.number?

theorem Fault.readBack?_eq_or (f : Fault) : f.number? = none ∨ f.readBack? = f.number? := by
  cases f with
  | unterminatedString => exact .inl rfl
  | _ => exact .inr rfl

/-- A message is read back with the number of its fault, except that of an unterminated string. -/
theorem Fault.Of.readBack {source : String} {e : Error} (h : e.fault.Of source) :
    e.diagnostic.code? = e.fault.readBack? := by
  show catalogNumber? (fill e.fault.template e.fault.quoted) = _
  generalize e.fault = f at h ⊢
  cases h with
  | lexical hlexical =>
    cases hlexical with
    | @illegalCharacter c hc =>
      have hstar : c ≠ '*' := by
        rintro rfl
        cases hc
      exact number_message_words (by rw [template, String.toList_ofList]; rfl) hstar
    | illegalEscape => exact number_message_words (by rw [template, String.toList_ofList]; rfl) (by decide)
    | unterminatedString => exact number_message_unterminated _
    | unterminatedComment => exact number_message _ (by rw [template, String.toList_ofList]; decide)
  | @token t ht hconcerns =>
    cases hconcerns with
    | invalidArraySize hk =>
      obtain ⟨l, hl, rfl⟩ := List.mem_map.1 ht
      obtain ⟨hne, hdigits⟩ := lexemes_numerals _ l hl hk
      show catalogNumber? (fill _ l.token.spelling) = none
      rw [← String.ofList_toList (s := l.token.spelling)]
      rcases hcs : l.token.spelling.toList with _ | ⟨c, cs⟩
      · exact absurd hcs hne
      · have hstar : c ≠ '*' := by
          rintro rfl
          rw [hcs] at hdigits
          cases hdigits
        exact number_message_words (by rw [template, String.toList_ofList]; rfl) hstar
    | _ => exact number_message _ (by rw [template, String.toList_ofList]; decide)
  | meaning hmeaning =>
    obtain ⟨n, hn⟩ := Option.isSome_iff_exists.1 hmeaning
    obtain ⟨cs, hcs⟩ := template_number hn
    rw [number_message _ (by rw [hcs]; simp)]
    cases f with
    | unterminatedString => cases hn
    | _ => rfl

/-- Two lists of numbers are the same only if each of the entries gives the same, if one list has all that the
other has. -/
theorem filterMap_eq_iff {α β : Type} {f g : α → Option β} (h : ∀ a, g a = none ∨ f a = g a) {l : List α} :
    l.filterMap f = l.filterMap g ↔ ∀ a ∈ l, f a = g a := by
  have hlength (l : List α) : (l.filterMap g).length ≤ (l.filterMap f).length := by
    induction l with
    | nil => exact le_rfl
    | cons a l ih =>
      rcases h a with ha | ha
      · rw [List.filterMap_cons_none ha]
        exact ih.trans (by rw [List.filterMap_cons]; split <;> simp)
      · rw [List.filterMap_cons, List.filterMap_cons, ha]
        split <;> simpa using ih
  refine ⟨fun heq => ?_, List.filterMap_congr⟩
  induction l with
  | nil => simp
  | cons a l ih =>
    rw [List.forall_mem_cons]
    rw [List.filterMap_cons, List.filterMap_cons] at heq
    rcases hf : f a with _ | b <;> rcases hg : g a with _ | c <;> rw [hf, hg] at heq
    · exact ⟨rfl, ih heq⟩
    · rcases h a with ha | ha
      · rw [hg] at ha
        cases ha
      · rw [hf, hg] at ha
        cases ha
    · -- one list would be longer than the other
      have hle := hlength l
      have hlen := congrArg List.length heq
      simp only [List.length_cons] at hlen
      omega
    · obtain ⟨hb, hrest⟩ := List.cons.inj heq
      exact ⟨by rw [hb], ih hrest⟩

/-- Every message of a compilation is read back with the number of its fault in the catalog, those of unterminated
strings excepted; so the numbers are those of the faults of the meaning, in order, exactly if no unterminated string
begins like a number. -/
theorem compile_codes (options : Typing.Options) (source : String) :
    (∀ e ∈ (compile options source).errors, e.fault.code? = e.fault.number? ∧
        e.diagnostic.code? = e.fault.readBack?) ∧
      ((Diagnostics.ofErrors (compile options source).errors).codes =
          (compile options source).errors.filterMap (fun e => e.fault.number?) ↔
        ∀ e ∈ (compile options source).errors, e.fault.readBack? = e.fault.number?) := by
  have hread : ∀ e ∈ (compile options source).errors, e.diagnostic.code? = e.fault.readBack? :=
    fun e he => (fault_of_compile e he).readBack
  refine ⟨fun e he => ⟨e.fault.code?_eq, hread e he⟩, ?_⟩
  have hcodes : (Diagnostics.ofErrors (compile options source).errors).codes =
      (compile options source).errors.filterMap fun e => e.fault.readBack? := by
    rw [Diagnostics.codes, Diagnostics.ofErrors_entries, List.filterMap_map]
    exact List.filterMap_congr hread
  rw [hcodes]
  exact filterMap_eq_iff fun e => e.fault.readBack?_eq_or

/-- The text of an unterminated string is taken for the number of a fault of the meaning, of which there is none. -/
theorem codes_unterminated : (Diagnostics.ofErrors (compile .standard "\"*5").errors).codes = [5] ∧
    (compile .standard "\"*5").errors.filterMap (fun e => e.fault.code?) = [] := by
  decide +kernel

end VCLang
