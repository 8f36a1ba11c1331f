/-
Two checks in step. A check of a relabelled program, with any switches, goes the same way as the check of the program
itself: at every point the second has made the same tree, relabelled, and has reported what the first has, relabelled,
unless the switches leave it out. So the switches decide on reports alone, and neither a place nor a name, one that is
known to the check apart, decides on anything.
-/
import VCLang.Proofs.Tree.Relabel
import VCLang.Typing.Program
namespace VCLang

/-! ## Relabelled errors -/

/-- A fault with other names in what it quotes. -/
def Fault.relabel (r : Relabelling) : Fault → Fault
  | redeclared name => redeclared (r.name name)
  | declaredVoid name => declaredVoid (r.name name)
  | declaredVoidArray name => declaredVoidArray (r.name name)
  | undeclared name => undeclared (r.name name)
  | notScalar name => notScalar (r.name name)
  | notArray name => notArray (r.name name)
  | f => f

def Error.relabel (r : Relabelling) (e : Error) : Error := ⟨e.fault.relabel r, r.span e.span⟩

theorem voidFault?_relabel (r : Relabelling) (name : String) (t : Ty) :
    voidFault? (r.name name) t = (voidFault? name t).map (Fault.relabel r) := by
  unfold voidFault?
  split <;> rfl

/-! ## Scopes -/

namespace Scopes

variable {α : Type} {f : String → String}

/-- Scopes that bind other names to the same. -/
def renamed (f : String → String) (s : Scopes α) : Scopes α :=
  ⟨s.innermost.map (Prod.map f id), s.outer.map (List.map (Prod.map f id))⟩

theorem lookup_renamed (hf : ∀ x y, f x = f y → x = y) (bindings : List (String × α)) (name : String) :
    (bindings.map (Prod.map f id)).lookup (f name) = bindings.lookup name := by
  induction bindings with
  | nil => rfl
  | cons b bindings ih =>
    have hname : (f name == f b.1) = (name == b.1) := by
      rw [Bool.eq_iff_iff, beq_iff_eq, beq_iff_eq]
      exact ⟨hf _ _, congrArg f⟩
    rw [List.map_cons, List.lookup_cons, List.lookup_cons, ih, ← hname]
    rfl

theorem retrieveOneLevel_renamed (hf : ∀ x y, f x = f y → x = y) (s : Scopes α) (name : String) :
    (s.renamed f).retrieveOneLevel (f name) = s.retrieveOneLevel name :=
  lookup_renamed hf s.innermost name

theorem retrieve_renamed (hf : ∀ x y, f x = f y → x = y) (s : Scopes α) (name : String) :
    (s.renamed f).retrieve (f name) = s.retrieve name := by
  have hmap : (s.renamed f).innermost :: (s.renamed f).outer =
      (s.innermost :: s.outer).map (List.map (Prod.map f id)) := rfl
  rw [retrieve, hmap, List.findSome?_map]
  simp only [Function.comp_def, lookup_renamed hf]
  rfl

theorem insert_renamed (s : Scopes α) (name : String) (a : α) :
    (s.renamed f).insert (f name) a = (s.insert name a).renamed f := rfl

theorem closeScope_renamed (s : Scopes α) : (s.renamed f).closeScope = s.closeScope.renamed f := by
  obtain ⟨i, _ | ⟨o, os⟩⟩ := s <;> rfl

end Scopes

/-! ## Checks in step -/

/-- Two checks go the same way: from states that correspond by `g` they go to such states, the second with the result
of the first by `h`, and with the reports of the first by `t`, which may leave out some. -/
def Check.InStep {σ α β : Type} (t : Error → Option Error) (g : σ → σ) (h : α → β) (m : Check σ α) (m' : Check σ β) :
    Prop :=
  ∀ s, m' (g s) = ⟨h (m s).value, g (m s).state, (m s).errors.filterMap t⟩

namespace Check

variable {σ α β α' β' : Type} {t : Error → Option Error} {g : σ → σ} {h : α → α'} {k : β → β'}

theorem inStep_pure {a : α} {a' : α'} (ha : h a = a') : InStep t g h (pure a) (pure a') := by
  intro s
  rw [← ha]
  rfl

theorem InStep.bind {m : Check σ α} {m' : Check σ α'} {f : α → Check σ β} {f' : α' → Check σ β'}
    (hm : InStep t g h m m') (hf : ∀ a, InStep t g k (f a) (f' (h a))) : InStep t g k (m >>= f) (m' >>= f') := by
  intro s
  rw [bind_apply, bind_apply, hm s, List.filterMap_append]
  dsimp only
  rw [hf]

theorem InStep.map {m : Check σ α} {m' : Check σ α'} {f : α → β} {f' : α' → β'} (hm : InStep t g h m m')
    (hf : ∀ a, k (f a) = f' (h a)) : InStep t g k (f <$> m) (f' <$> m') := by
  rw [map_eq_pure_bind, map_eq_pure_bind]
  exact hm.bind fun a => inStep_pure (hf a)

theorem InStep.ite {c c' : Prop} [Decidable c] [Decidable c'] {m n : Check σ α} {m' n' : Check σ α'} (hc : c ↔ c')
    (hm : InStep t g h m m') (hn : InStep t g h n n') : InStep t g h (if c then m else n) (if c' then m' else n') := by
  by_cases hc' : c
  · rw [if_pos hc', if_pos (hc.1 hc')]
    exact hm
  · rw [if_neg hc', if_neg fun h => hc' (hc.2 h)]
    exact hn

theorem inStep_get : InStep t g g get get := fun _ => rfl

theorem inStep_modify {f f' : σ → σ} (hf : ∀ s, f' (g s) = g (f s)) : InStep t g id (modify f) (modify f') := by
  intro s
  rw [modify_apply, hf]
  rfl

/-- A change of the state in front of a check. -/
theorem InStep.modifying {f f' : σ → σ} {m : Check σ α} {m' : Check σ α'} (hf : ∀ s, f' (g s) = g (f s))
    (hm : InStep t g h m m') : InStep t g h (modify f >>= fun _ => m) (modify f' >>= fun _ => m') :=
  (inStep_modify hf).bind fun _ => hm

theorem inStep_report {f f' : Fault} {span span' : Span} (ht : t ⟨f, span⟩ = some ⟨f', span'⟩) :
    InStep t g id (report f span) (report f' span') := by
  intro s
  rw [report_apply, report_apply]
  simp [ht]

/-- A report in front of a check. -/
theorem InStep.reporting {f f' : Fault} {span span' : Span} {m : Check σ α} {m' : Check σ α'}
    (ht : t ⟨f, span⟩ = some ⟨f', span'⟩) (hm : InStep t g h m m') :
    InStep t g h (report f span >>= fun _ => m) (report f' span' >>= fun _ => m') :=
  (inStep_report ht).bind fun _ => hm

end Check

namespace Typing

open Check

/-- What is reported under some switches. -/
def Options.reports (o : Options) : Fault → Bool
  | .statementNotReached => o.reportUnreachable
  | .missingReturn => o.reportMissingReturn
  | _ => true

/-- What becomes of an error in a check of a relabelled program with some switches. -/
def carry (r : Relabelling) (o : Options) (e : Error) : Option Error :=
  if o.reports e.fault then some (e.relabel r) else none

variable {r : Relabelling} {o : Options}

theorem carry_of_reports {f : Fault} {span : Span} (h : o.reports f = true) :
    carry r o ⟨f, span⟩ = some ⟨f.relabel r, r.span span⟩ := if_pos h

/-! ## Expressions -/

/-- Checks of expressions that go the same way. -/
abbrev ExprInStep {α β : Type} (r : Relabelling) (o : Options) (h : α → β) : Check Nat α → Check Nat β → Prop :=
  InStep (carry r o) id h

theorem inStep_widenIf (needed : Bool) (e : Expr) :
    ExprInStep r o (Expr.relabel r) (widenIf needed e) (widenIf needed (e.relabel r)) := by
  have hfresh : ExprInStep r o id freshExpr freshExpr := fun _ => rfl
  refine .ite Iff.rfl (hfresh.bind fun id => inStep_pure ?_) (inStep_pure rfl)
  rw [Expr.relabel, ExprInfo.relabel, Expr.relabel_span]
  rfl

/-- Rulings that say the same. What is wrong by a rule is always reported. -/
inductive RulingInStep {α : Type} (r : Relabelling) (o : Options) : Ruling α → Ruling α → Prop
  | accept {a : α} : RulingInStep r o (.accept a) (.accept a)
  | reject {f : Fault} : o.reports f = true → RulingInStep r o (.reject f) (.reject (f.relabel r))
  | silent : RulingInStep r o .silent .silent

theorem inStep_storeRuling {fault : Fault} (hr : fault.relabel r = fault) (ho : o.reports fault = true)
    (target value : Ty) : RulingInStep r o (storeRuling fault target value) (storeRuling fault target value) := by
  have hreject : RulingInStep (α := Bool) r o (.reject fault) (.reject (fault.relabel r)) := .reject ho
  rw [hr] at hreject
  unfold storeRuling
  split_ifs
  · exact .accept
  · exact hreject

theorem inStep_argumentRuling (param arg : Ty) :
    RulingInStep r o (argumentRuling param arg) (argumentRuling param arg) := by
  unfold argumentRuling
  split_ifs
  · exact .accept
  · exact .reject rfl

theorem inStep_assignRuling (target value : Expr) : RulingInStep r o (assignRuling target.type value.type value.name)
    (assignRuling (target.relabel r).type (value.relabel r).type (value.relabel r).name) := by
  rw [Expr.relabel_type, Expr.relabel_type, Expr.relabel_name]
  unfold assignRuling
  split_ifs
  · exact .reject rfl
  · exact .reject rfl
  · exact inStep_storeRuling rfl rfl _ _

theorem inStep_unaryRuling (op : Operator) (operand : Expr) : RulingInStep r o (unaryRuling op.spelling operand.type)
    (unaryRuling (op.relabel r).spelling (operand.relabel r).type) := by
  rw [Expr.relabel_type, Operator.relabel]
  unfold unaryRuling
  split <;> try split_ifs
  all_goals first
    | exact .accept
    | exact .reject rfl
    | exact .silent

theorem inStep_binaryRuling (op : Operator) (left right : Expr) :
    RulingInStep r o (binaryRuling op.spelling left.type right.type left.name right.name)
      (binaryRuling (op.relabel r).spelling (left.relabel r).type (right.relabel r).type (left.relabel r).name
        (right.relabel r).name) := by
  rw [Expr.relabel_type, Expr.relabel_type, Expr.relabel_name, Expr.relabel_name, Operator.relabel]
  unfold binaryRuling
  split_ifs
  · exact .silent
  · exact .reject rfl
  · exact .reject rfl
  · exact .reject rfl
  · dsimp only
    rcases (OperatorClass.ofSpelling? op.spelling).bind (·.apply left.type right.type) with _ | a
    · exact .reject rfl
    · exact .accept

theorem inStep_settle {ruling ruling' : Ruling Bool} (h : RulingInStep r o ruling ruling') (span : Span) (e : Expr) :
    ExprInStep r o (Expr.relabel r) (settle ruling span e) (settle ruling' (r.span span) (e.relabel r)) := by
  cases h with
  | @accept needed => exact inStep_widenIf needed e
  | reject hf => exact .reporting (carry_of_reports hf) (inStep_pure rfl)
  | silent => exact inStep_pure rfl

theorem inStep_checkVar (env : Env) (whole : Bool) (info : ExprInfo) (ident : Ident) :
    ExprInStep r o (Expr.relabel r) (checkVar env whole info ident)
      (checkVar (env.renamed r.name) whole (info.relabel r) (ident.relabel r)) := by
  have hname : (env.renamed r.name).retrieve (ident.relabel r).spelling = env.retrieve ident.spelling :=
    Scopes.retrieve_renamed r.name_injective env ident.spelling
  unfold checkVar
  rw [hname]
  rcases env.retrieve ident.spelling with _ | b
  · exact .reporting (carry_of_reports rfl) (inStep_pure rfl)
  · obtain ⟨decl, ty | ⟨ret, params⟩⟩ := b
    · exact inStep_pure rfl
    · exact .ite Iff.rfl (inStep_pure rfl) (.reporting (carry_of_reports rfl) (inStep_pure rfl))

theorem inStep_checkAccess (env : Env) (info : ExprInfo) (ident : Ident) (index : Expr) :
    ExprInStep r o (Expr.relabel r) (checkAccess env info ident index)
      (checkAccess (env.renamed r.name) (info.relabel r) (ident.relabel r) (index.relabel r)) := by
  have hname : (env.renamed r.name).retrieve (ident.relabel r).spelling = env.retrieve ident.spelling :=
    Scopes.retrieve_renamed r.name_injective env ident.spelling
  unfold checkAccess
  rw [hname, Expr.relabel_type, Expr.relabel_span]
  rcases env.retrieve ident.spelling with _ | b
  · exact .reporting (carry_of_reports rfl) (inStep_pure rfl)
  · dsimp only
    rcases b.signature.element? with _ | element
    · exact .reporting (carry_of_reports rfl) (inStep_pure rfl)
    · unfold subscriptFault?
      split_ifs
      · exact inStep_pure rfl
      · exact .reporting (carry_of_reports rfl) (inStep_pure rfl)

theorem inStep_finishUnary (info : ExprInfo) (op : Operator) (operand : Expr) :
    ExprInStep r o (Expr.relabel r) (finishUnary info op operand)
      (finishUnary (info.relabel r) (op.relabel r) (operand.relabel r)) := by
  have hruling : RulingInStep r o _ _ := inStep_unaryRuling op operand
  unfold finishUnary
  generalize unaryRuling op.spelling operand.type = ruling at hruling ⊢
  generalize unaryRuling (op.relabel r).spelling (operand.relabel r).type = ruling' at hruling ⊢
  cases hruling with
  | accept => exact inStep_pure rfl
  | reject hf => exact .reporting (carry_of_reports hf) (inStep_pure rfl)
  | silent => exact inStep_pure rfl

theorem inStep_finishBinary (info : ExprInfo) (op : Operator) (left right : Expr) :
    ExprInStep r o (Expr.relabel r) (finishBinary info op left right)
      (finishBinary (info.relabel r) (op.relabel r) (left.relabel r) (right.relabel r)) := by
  have hruling : RulingInStep r o _ _ := inStep_binaryRuling op left right
  unfold finishBinary
  generalize binaryRuling op.spelling left.type right.type left.name right.name = ruling at hruling ⊢
  generalize binaryRuling (op.relabel r).spelling (left.relabel r).type (right.relabel r).type (left.relabel r).name
    (right.relabel r).name = ruling' at hruling ⊢
  cases hruling with
  | accept => exact (inStep_widenIf _ left).bind fun _ => (inStep_widenIf _ right).bind fun _ => inStep_pure rfl
  | reject hf => exact .reporting (carry_of_reports hf) (inStep_pure rfl)
  | silent => exact inStep_pure rfl

theorem inStep_finishAssign (info : ExprInfo) (target value : Expr) :
    ExprInStep r o (Expr.relabel r) (finishAssign info target value)
      (finishAssign (info.relabel r) (target.relabel r) (value.relabel r)) := by
  have hruling : RulingInStep r o _ _ := inStep_assignRuling target value
  unfold finishAssign
  generalize assignRuling target.type value.type value.name = ruling at hruling ⊢
  generalize assignRuling (target.relabel r).type (value.relabel r).type (value.relabel r).name = ruling' at hruling ⊢
  cases hruling with
  | accept =>
    refine (inStep_widenIf _ value).bind fun _ => inStep_pure ?_
    rw [Expr.relabel_type]
    rfl
  | reject hf => exact .reporting (carry_of_reports hf) (inStep_pure rfl)
  | silent => exact inStep_pure rfl

/-- The check of an expression goes the same way, wherever it stands. -/
def ChecksInStep (r : Relabelling) (o : Options) (e : Expr) : Prop :=
  ∀ env whole, ExprInStep r o (Expr.relabel r) (checkExpr env whole e)
    (checkExpr (env.renamed r.name) whole (e.relabel r))

variable {es : List Expr}

theorem inStep_checkAll_of (h : ∀ e ∈ es, ChecksInStep r o e) (env : Env) :
    ExprInStep r o (List.map (Expr.relabel r)) (checkAll env es)
      (checkAll (env.renamed r.name) (es.map (Expr.relabel r))) := by
  induction es with
  | nil => exact inStep_pure rfl
  | cons e es ih =>
    rw [List.forall_mem_cons] at h
    exact (h.1 env false).bind fun _ => (ih h.2).bind fun _ => inStep_pure rfl

theorem inStep_checkArgs_of (h : ∀ e ∈ es, ChecksInStep r o e) (env : Env) (params : List Ty) :
    ExprInStep r o (List.map (Expr.relabel r)) (checkArgs env params es)
      (checkArgs (env.renamed r.name) params (es.map (Expr.relabel r))) := by
  induction es generalizing params with
  | nil =>
    unfold checkArgs
    exact inStep_pure rfl
  | cons e es ih =>
    rw [List.forall_mem_cons] at h
    cases params with
    | nil =>
      refine (h.1 env false).bind fun arg => ?_
      rw [Expr.relabel_span]
      refine .reporting (carry_of_reports rfl) ?_
      exact (inStep_checkAll_of h.2 env).bind fun _ => inStep_pure rfl
    | cons param params =>
      refine (h.1 env false).bind fun arg => ?_
      rw [Expr.relabel_type, Expr.relabel_span]
      refine (inStep_settle (inStep_argumentRuling _ _) _ _).bind fun _ => ?_
      exact (ih h.2 params).bind fun _ => inStep_pure rfl

theorem inStep_call {info : ExprInfo} {ident : Ident} {args : List Expr} (h : ∀ e ∈ args, ChecksInStep r o e) :
    ChecksInStep r o (.call info ident args) := by
  intro env whole
  have hname : (env.renamed r.name).retrieve (ident.relabel r).spelling = env.retrieve ident.spelling :=
    Scopes.retrieve_renamed r.name_injective env ident.spelling
  have hmain : ident.spelling = "main" ↔ (ident.relabel r).spelling = "main" := r.name_eq_main_iff.symm
  have hbuild (info : ExprInfo) (ident : Ident) (args : List Expr) : (Expr.call info ident args).relabel r =
      .call (info.relabel r) (ident.relabel r) (args.map (Expr.relabel r)) := by
    rw [Expr.relabel, Expr.relabelAll_eq]
  have hall (ident : Ident) :
      ExprInStep r o (Expr.relabel r) (checkAll env args >>= fun args => pure (.call (info.typed .error) ident args))
        (checkAll (env.renamed r.name) (args.map (Expr.relabel r)) >>= fun args =>
          pure (.call ((info.relabel r).typed .error) (ident.relabel r) args)) :=
    (inStep_checkAll_of h env).bind fun _ => inStep_pure (hbuild _ _ _)
  rw [hbuild, checkExpr, checkExpr, hname, List.length_map]
  refine .ite hmain (.reporting (carry_of_reports rfl) (hall ident)) ?_
  rcases env.retrieve ident.spelling with _ | b
  · exact .reporting (carry_of_reports rfl) (hall ident)
  · obtain ⟨decl, ty | ⟨ret, params⟩⟩ := b
    · exact .reporting (carry_of_reports rfl) (hall (ident.bindTo decl))
    · refine (inStep_checkArgs_of h env params).bind fun _ => .ite Iff.rfl ?_ (inStep_pure (hbuild _ _ _))
      exact .reporting (carry_of_reports rfl) (inStep_pure (hbuild _ _ _))

theorem checksInStep (e : Expr) : ChecksInStep r o e := by
  induction e using Expr.induct with
  | literal info value => exact fun _ _ => inStep_pure rfl
  | var info ident => exact fun env whole => inStep_checkVar env whole info ident
  | arrayAccess info ident index ih =>
    exact fun env _ => (ih env false).bind fun index => inStep_checkAccess env info ident index
  | call info ident args ih => exact inStep_call ih
  | unary info op operand ih =>
    exact fun env _ => (ih env false).bind fun operand => inStep_finishUnary info op operand
  | binary info op left right ihLeft ihRight =>
    intro env whole
    refine (ihLeft env false).bind fun left => (ihRight env false).bind fun right => ?_
    exact inStep_finishBinary info op left right
  | assign info target value ihTarget ihValue =>
    intro env whole
    rw [Expr.relabel, checkExpr, checkExpr, Expr.relabel_isLvalue]
    refine .ite Iff.rfl ?_ (.reporting (carry_of_reports rfl) ?_)
    · refine (ihTarget env false).bind fun target => (ihValue env false).bind fun value => ?_
      exact inStep_finishAssign info target value
    · exact (ihTarget env false).bind fun _ => (ihValue env false).bind fun _ => inStep_pure rfl
  | initList info elements ih =>
    intro env whole
    rw [Expr.relabel, Expr.relabelAll_eq]
    refine (inStep_checkAll_of ih env).bind fun _ => inStep_pure ?_
    rw [Expr.relabel, Expr.relabelAll_eq]
    rfl
  | intToFloat info operand ih => exact fun env _ => (ih env false).bind fun _ => inStep_pure rfl

theorem inStep_checkElements (env : Env) (element : Ty) (es : List Expr) :
    ExprInStep r o (List.map (Expr.relabel r)) (checkElements env element es)
      (checkElements (env.renamed r.name) element (es.map (Expr.relabel r))) := by
  induction es with
  | nil => exact inStep_pure rfl
  | cons e es ih =>
    refine (checksInStep e env false).bind fun e => ?_
    rw [Expr.relabel_type, Expr.relabel_span]
    refine (inStep_settle (inStep_storeRuling rfl rfl _ _) _ _).bind fun _ => ?_
    exact ih.bind fun _ => inStep_pure rfl

end Typing

end VCLang
