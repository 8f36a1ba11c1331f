/-
One more check of checked variables and statements. What is known at their places is what the first check knew but for
sizes of arrays and numbers of predeclared functions; nothing more is reported there than operators in their
expressions, and nothing is filled in or converted.
-/
import VCLang.Proofs.Recheck.Expression
import VCLang.Proofs.Typing.Soundness
namespace VCLang.Typing

open Static Check

variable {copies : List (Prototype × Prototype)} {options : Options} {env : Env} {k k₁ k' : Checker} {n n' : Nat}
  {errors errors' : List Error}

/-! ## Places -/

/-- A place in one more check. -/
structure Checker.Recalled (copies : List (Prototype × Prototype)) (k k' : Checker) : Prop where
  env : Env.Recalled copies k.env k'.env
  loopDepth : k'.loopDepth = k.loopDepth
  function : k'.function = k.function

namespace Checker.Recalled

theorem next (h : k.Recalled copies k') (n : Nat) : Checker.Recalled copies { k with nextExpr := n } k' :=
  ⟨h.env, h.loopDepth, h.function⟩

theorem enter (h : k.Recalled copies k') (n : Nat) : Checker.Recalled copies
    { k with loopDepth := k.loopDepth + 1, nextExpr := n } { k' with loopDepth := k'.loopDepth + 1 } :=
  ⟨h.env, congrArg (· + 1) h.loopDepth, h.function⟩

theorem inner (h : k.Recalled copies k') :
    Checker.Recalled copies { k with env := k.env.openScope } { k' with env := k'.env.openScope } :=
  ⟨h.env.openScope, h.loopDepth, h.function⟩

/-- A name that is free in the innermost scope is so once more. -/
theorem fresh (h : k.Recalled copies k') {name : String} (hname : k.env.retrieveOneLevel name = none) :
    k'.env.retrieveOneLevel name = none := by
  have hrel := h.env.retrieveOneLevel name
  rw [hname] at hrel
  generalize k'.env.retrieveOneLevel name = o at hrel ⊢
  cases hrel
  rfl

end Checker.Recalled

/-- One more check of a checked part of a program, from a place to another: what it makes of the part, and reports of
the nodes of this. -/
structure Again {α : Type} (R : α → α → Prop) (listed : NodeId → α → List Entry) (check : α → Check Checker α)
    (k : Checker) (x x' : α) (k' : Checker) (errors : List Error) : Prop where
  rechecked : R x x'
  ends : (check x).Ends k x' k' errors
  reported : ∀ parent, Reported (listed parent x) errors

/-! ## Expressions in their places -/

/-- One more check of an expression in its place, which needs nothing of it. -/
abbrev ExprAgain (copies : List (Prototype × Prototype)) (check : Expr → Check Checker Expr) (k : Checker)
    (e e' : Expr) (errors : List Error) : Prop :=
  Again (Expr.Rechecked copies) Expr.entries check k e e' k errors

abbrev OptionAgain (copies : List (Prototype × Prototype)) (check : Option Expr → Check Checker (Option Expr))
    (k : Checker) (o o' : Option Expr) (errors : List Error) : Prop :=
  Again (Option.Rel (Expr.Rechecked copies)) Expr.entriesOption check k o o' k errors

theorem Repeats.onExpr {whole : Bool} {e e' : Expr} (h : Repeats copies k.env whole e e' errors) :
    ExprAgain copies (fun e => Typing.onExpr fun env => checkExpr env whole e) k e e' errors where
  rechecked := h.rechecked
  ends := ends_onExpr.2 ⟨k.nextExpr, h.ends _, rfl⟩
  reported := h.reported

theorem OptionAgain.none {check : Option Expr → Check Checker (Option Expr)} (h : (check none).Ends k none k []) :
    OptionAgain copies check k none none [] := ⟨.none, h, fun _ => .nil⟩

theorem again_checkOption {o o' : Option Expr} (h : RunsOption env n o o' n') (hΓ : env.scope.Proper)
    (hrecalled : Env.Recalled copies env k.env) (ho : ∀ e ∈ o, e.Plain) :
    ∃ o'' errors, OptionAgain copies checkOption k o' o'' errors := by
  cases h with
  | none => exact ⟨none, [], .none (ends_pure.2 ⟨rfl, rfl, rfl⟩)⟩
  | some hrun =>
    obtain ⟨e'', errors, hagain⟩ := repeats_checkExpr hΓ hrecalled (ho _ rfl) hrun
    exact ⟨some e'', errors, .some hagain.rechecked, hagain.onExpr.ends.then_pure, hagain.reported⟩

/-- What was stored where a type is declared is stored there once more. -/
theorem repeats_store {target : Ty} {e e' : Expr} {env' : Env} (h : RunsStore env target n e e' n')
    (hΓ : env.scope.Proper) (hrecalled : Env.Recalled copies env env') (htarget : target.Proper) (he : e.Plain) :
    ∃ e'' errors, Repeats copies env' false e' e'' errors ∧ ∀ f, storeRuling f target e''.type = .accept false := by
  obtain ⟨checked, n₁, hrun, hassign, hw⟩ := h
  obtain ⟨again, errors, hagain⟩ := repeats_checkExpr hΓ hrecalled he hrun
  obtain ⟨e'', hconverted⟩ := hagain.widened hw
  have hproper := ((finds hΓ he).sound hrun).proper hΓ
  have hstores := (assignable_iff htarget hproper).1 hassign
  have htype := hw.type (root_checkExpr hrun).typed
  rw [widened_of_stores hstores] at htype
  have hrechecked := hconverted.rechecked.type.1
  rw [htype] at hrechecked
  exact ⟨e'', errors, hconverted, fun f => storeRuling_again hrechecked (isArray_of_stores hstores)⟩

theorem repeats_checkElements {element : Ty} {es es' : List Expr} {env' : Env}
    (h : RunsElements env element n es es' n') (hΓ : env.scope.Proper) (hrecalled : Env.Recalled copies env env')
    (helement : element.Proper) (hes : ∀ e ∈ es, e.Plain) :
    ∃ es'' errors, RepeatsAll copies (checkElements env' element) es' es'' errors ∧ es'.length = es.length := by
  induction h with
  | nil => exact ⟨[], [], .nil rfl, rfl⟩
  | cons hstore _ ih =>
    obtain ⟨e'', errors, hagain, hruling⟩ := repeats_store hstore hΓ hrecalled helement (hes _ List.mem_cons_self)
    obtain ⟨es'', errors', hall, hlength⟩ := ih fun e he => hes e (List.mem_cons_of_mem _ he)
    refine ⟨e'' :: es'', errors ++ errors',
      .cons (storeRuling .wrongInitialiserElement element) rfl hagain (hruling _) hall, ?_⟩
    rw [List.length_cons, List.length_cons, hlength]

theorem again_checkCondition {cond cond' : Expr} (h : RunsCondition env n cond cond' n') (hΓ : env.scope.Proper)
    (hrecalled : Env.Recalled copies env k.env) (hc : cond.Plain) :
    ∃ cond'' errors, ∀ fault, ExprAgain copies (checkCondition fault) k cond' cond'' errors := by
  obtain ⟨hrun, hboolean⟩ := h
  obtain ⟨cond'', errors, hagain⟩ := repeats_checkExpr hΓ hrecalled hc hrun
  refine ⟨cond'', errors, fun fault => ⟨hagain.rechecked, ?_, hagain.reported⟩⟩
  have hproper := ((finds hΓ hc).sound hrun).proper hΓ
  have hrechecked := hagain.rechecked.type.1
  rw [(isBoolean_iff hproper).1 hboolean] at hrechecked
  have hfault : conditionFault? fault cond''.type = none := by
    rcases hrechecked.eq_or_error rfl with h | h <;> rw [h] <;> rfl
  refine hagain.onExpr.ends.bind_quiet ?_
  rw [hfault]
  exact ends_pure.2 ⟨rfl, rfl, rfl⟩

/-- The condition of a `for` loop is no longer omitted. -/
theorem again_forCondition {span : Span} {cond : Option Expr} {cond' : Expr}
    (h : RunsForCondition env n span cond cond' n') (hΓ : env.scope.Proper)
    (hrecalled : Env.Recalled copies env k.env) (hc : ∀ e ∈ cond, e.Plain) :
    ∃ cond'' errors, ∀ fault, ExprAgain copies (checkCondition fault) k cond' cond'' errors := by
  cases h with
  | omitted =>
    have hagain : Repeats copies k.env false _ _ [] := @Repeats.literal _ _ _ ⟨⟨n⟩, span, none⟩ (.boolean "true")
    exact ⟨_, [], fun fault => ⟨hagain.rechecked, hagain.onExpr.ends.bind_quiet (ends_pure.2 ⟨rfl, rfl, rfl⟩),
      hagain.reported⟩⟩
  | given hcond => exact again_checkCondition hcond hΓ hrecalled (hc _ rfl)

/-- What was returned is returned once more. -/
theorem again_checkReturn {f : Prototype} {inLoop : Bool} {span : Span} {o o' : Option Expr}
    (h : RunsReturn k o o' n') (hk : k.In f inLoop) (hrecalled : k.Recalled copies k') (ho : ∀ e ∈ o, e.Plain) :
    ∃ o'' errors, OptionAgain copies (checkReturn span) k' o' o'' errors := by
  have hfunction := hrecalled.function.trans hk.function
  cases h with
  | outside hnone => cases hnone.symm.trans hk.function
  | main hf hmain hoption hfault =>
    cases hf.symm.trans hk.function
    obtain ⟨o'', errors, hagain⟩ := again_checkOption hoption hk.scope hrecalled.env ho
    refine ⟨o'', errors, hagain.rechecked, hagain.ends.bind_quiet ?_, hagain.reported⟩
    refine Ends.quiet_bind (ends_get.2 ⟨rfl, rfl, rfl⟩) ?_
    have hfault' : mainReturnFault? (valueType o'') = none := by
      have hrel := hagain.rechecked
      cases hoption with
      | none => cases hfault
      | some hrun =>
        have hproper := ((finds hk.scope (ho _ rfl)).sound hrun).proper hk.scope
        have hint := (mainReturnFault?_iff hproper).1 hfault
        cases hrel with
        | some he =>
          have hrechecked := he.type.1
          rw [hint] at hrechecked
          rcases hrechecked.eq_or_error rfl with h | h <;> rw [valueType, h] <;> rfl
    rw [hfunction]
    simp only [hmain, if_true]
    rw [hfault']
    exact ends_pure.2 ⟨rfl, rfl, rfl⟩
  | nothing hf hmain hassign =>
    cases hf.symm.trans hk.function
    have hrun : (checkReturn span none).Runs k' none k' :=
      runs_checkReturn.2 ⟨k'.nextExpr, .nothing hfunction hmain hassign, rfl⟩
    exact ⟨none, [], .none hrun⟩
  | value hf hmain hstore =>
    cases hf.symm.trans hk.function
    obtain ⟨e'', errors, hagain, hruling⟩ := repeats_store hstore hk.scope hrecalled.env hk.result (ho _ rfl)
    refine ⟨some e'', errors, .some hagain.rechecked, hagain.onExpr.ends.then_pure.bind_quiet ?_, hagain.reported⟩
    refine Ends.quiet_bind (ends_get.2 ⟨rfl, rfl, rfl⟩) ?_
    rw [hfunction]
    simp only [if_neg hmain, valueType, hruling]
    exact ends_onExpr.2 ⟨k'.nextExpr, rfl, rfl⟩

/-! ## Variables -/

/-- No initial value that is not a list becomes one. -/
theorem ne_initList {e e' : Expr} {target : Ty} (he : e.Plain) (h : RunsStore env target n e e' n') (info : ExprInfo)
    (elements : List Expr) : e' ≠ .initList info elements := by
  obtain ⟨checked, n₁, hrun, -, hw⟩ := h
  generalize target.needsIntToFloat checked.type = needed at hw
  rintro rfl
  cases hw
  have helaborates := elaborates_checkExpr hrun
  cases helaborates
  cases he

theorem checkInit_scalar {d : VarDecl} {e : Expr} (hty : d.ty.isArray = false) (hinit : d.init = some e)
    (hlist : ∀ info elements, e ≠ .initList info elements) : checkInit d = checkScalarInit d e := by
  rw [Ty.isArray_eq_false_iff] at hty
  unfold checkInit
  split
  · exact absurd ‹d.ty = _› (hty _ _)
  · cases hinit.symm.trans ‹d.init = _›
  · exact absurd ‹d.ty = _› (hty _ _)
  · exact absurd ‹d.ty = _› (hty _ _)
  · cases hinit.symm.trans ‹d.init = _›
    exact absurd rfl (hlist _ _)
  · cases hinit.symm.trans ‹d.init = _›
    rfl

theorem again_checkInit {d d' : VarDecl} (h : RunsInit env n d d' n') (hΓ : env.scope.Proper)
    (hrecalled : Env.Recalled copies env k.env) (hd : d.Plain) : ∃ d'' errors,
      Again (VarDecl.Rechecked copies) VarDecl.entries checkInit k d' d'' k errors ∧ d''.binding = d'.binding := by
  -- the node of a variable is behind those of its initial value
  have hreported {d : VarDecl} {errors : List Error} {parent : NodeId}
      (h : Reported (Expr.entriesOption (.decl d.id) d.init) errors) : Reported (d.entries parent) errors :=
    h.behind fun id n hn => by cases hn
  cases h with
  | none hty hinit =>
    have hrun : (checkInit d).Runs k d k := runs_checkInit.2 ⟨k.nextExpr, .none hty hinit, rfl⟩
    refine ⟨d, [], ⟨.intro (by rw [hinit]; exact .none), hrun, fun parent => hreported ?_⟩, rfl⟩
    rw [hinit]
    exact .nil
  | sized hty hinit =>
    have hrun : (checkInit d).Runs k d k := runs_checkInit.2 ⟨k.nextExpr, .sized hty hinit, rfl⟩
    refine ⟨d, [], ⟨.intro (by rw [hinit]; exact .none), hrun, fun parent => hreported ?_⟩, rfl⟩
    rw [hinit]
    exact .nil
  | @scalar e e' _ hty hinit hlist hstore =>
    have he : e.Plain := hd.expr hinit hlist
    obtain ⟨e'', errors, hagain, hruling⟩ := repeats_store hstore hΓ hrecalled hd.ty.proper he
    refine ⟨{ d with init := some e'' }, errors, ⟨.intro (.some hagain.rechecked), ?_, fun parent => ?_⟩, rfl⟩
    · rw [checkInit_scalar (d := { d with init := some e' }) hty rfl (ne_initList he hstore)]
      refine Ends.then_pure (ends_onExpr.2 ⟨k.nextExpr, (hagain.ends _).bind_quiet ?_, rfl⟩)
      rw [hruling]
      exact ends_pure.2 ⟨rfl, rfl, rfl⟩
    · exact hreported (hagain.reported _)
  | @list element size info es es' _ t hty hinit hlength hes ht =>
    have helement : element.Proper := by
      have hproper := hd.ty.proper
      rwa [hty] at hproper
    obtain ⟨es'', errors, hall, hlength'⟩ := repeats_checkElements hes hΓ hrecalled helement (hd.elements hinit)
    subst ht
    let t : Ty := .array element (some (size.getD es.length))
    refine ⟨{ d with ty := t, init := some (.initList (info.typed t) es'') }, errors,
      ⟨.intro (.some (.initList rfl hall.rechecked)), ?_, fun parent => ?_⟩, rfl⟩
    · have hfits : ¬ es'.length > size.getD es.length := by omega
      simp only [checkInit, checkArrayInit, Option.getD_some, if_neg hfits]
      exact Ends.then_pure (ends_onExpr.2 ⟨k.nextExpr, hall.ends _, rfl⟩)
    · exact hreported (reported_expr rfl (hall.reported _))

/-- A variable is declared once more: what follows knows of it what it did. -/
theorem again_checkVarDecl {d d' : VarDecl} (h : (checkVarDecl d).Runs k d' k₁) (hΓ : k.env.scope.Proper)
    (hrecalled : k.Recalled copies k') (hd : d.Plain) : ∃ d'' errors,
      Again (VarDecl.Rechecked copies) VarDecl.entries checkVarDecl k' d' d''
        { k' with env := k'.env.insert d.ident.spelling d'.binding } errors ∧
      k₁.Recalled copies { k' with env := k'.env.insert d.ident.spelling d'.binding } := by
  obtain ⟨hnew, hvoid, n', hinit, rfl⟩ := runs_checkVarDecl.1 h
  obtain ⟨hident, hid⟩ := hinit.same
  have hsame := hinit.sameButSize
  have hbinding : Binding.Recalled copies d.binding d'.binding := by
    refine ⟨?_, .var hsame⟩
    rw [VarDecl.binding, VarDecl.binding, hid]
    exact .same
  let k₂ : Checker := { k' with env := k'.env.insert d'.ident.spelling d'.binding }
  have hinner : Env.Recalled copies (k.env.insert d.ident.spelling d.binding) k₂.env := by
    have hinsert := hrecalled.env.insert d.ident.spelling hbinding
    rwa [← hident] at hinsert ⊢
  obtain ⟨d'', errors, hagain, hsignature⟩ := again_checkInit hinit (hΓ.insert hd.ty.proper) hinner hd
  refine ⟨d'', errors, ⟨hagain.rechecked, ?_, hagain.reported⟩, ⟨?_, hrecalled.loopDepth, hrecalled.function⟩⟩
  · have hfree : redeclaration k'.env d'.ident = [] := by
      rw [redeclaration, hident, hrecalled.fresh hnew]
      rfl
    have hdeclared : (declare d'.ident d'.binding).Ends k' () k₂ [] := ends_declare.2 ⟨rfl, hfree.symm⟩
    have hname : d''.ident = d'.ident := by
      cases hagain.rechecked
      rfl
    refine Ends.quiet_bind (ends_get.2 ⟨rfl, rfl, rfl⟩) (Ends.quiet_bind hdeclared ?_)
    rw [voidFault?_iff.2 (hvoid.of_sameButSize hsame)]
    refine hagain.ends.bind_quiet (Ends.quiet_bind (ends_modify (u := ()).2 ⟨rfl, rfl⟩) ?_)
    rw [hsignature, hname, hident]
    exact ends_pure.2 ⟨rfl, rfl, rfl⟩
  · exact hrecalled.env.insert d.ident.spelling ⟨.same, .var .same⟩

theorem again_checkVarDecls {ds ds' : List VarDecl} (h : (checkVarDecls ds).Runs k ds' k₁) (hΓ : k.env.scope.Proper)
    (hrecalled : k.Recalled copies k') (hds : ∀ d ∈ ds, d.Plain) : ∃ ds'' env errors,
      Again (List.Forall₂ (VarDecl.Rechecked copies)) (fun parent ds => ds.flatMap (VarDecl.entries parent))
        checkVarDecls k' ds' ds'' { k' with env } errors ∧
      k₁.Recalled copies { k' with env } ∧ env.outer = k'.env.outer := by
  induction ds generalizing k ds' k' with
  | nil =>
    obtain ⟨rfl, rfl⟩ := runs_pure.1 h
    exact ⟨[], k'.env, [], ⟨.nil, ends_pure.2 ⟨rfl, rfl, rfl⟩, fun _ => .nil⟩, hrecalled, rfl⟩
  | cons d ds ih =>
    simp only [checkVarDecls, runs_bind, runs_pure] at h
    obtain ⟨d', k₂, hrun, ds', _, hrest, rfl, rfl⟩ := h
    have hplain := hds d List.mem_cons_self
    have hΓ' := ((declares_iff hΓ hplain _).1 ⟨d', k₂, hrun, rfl⟩).proper hΓ hplain
    obtain ⟨d'', errors, hagain, hnext⟩ := again_checkVarDecl hrun hΓ hrecalled hplain
    obtain ⟨ds'', env, errors', hall, hbehind, houter⟩ :=
      ih hrest hΓ' hnext fun d hd => hds d (List.mem_cons_of_mem _ hd)
    exact ⟨d'' :: ds'', env, errors ++ errors', ⟨.cons hagain.rechecked hall.rechecked,
      hagain.ends.bind hall.ends.then_pure, fun parent => (hagain.reported parent).append (hall.reported parent)⟩,
      hbehind, houter⟩

/-! ## Statements -/

section Statements

variable {f : Prototype} {inLoop : Bool}

/-- A statement that was checked without a report is checked once more, with any options. -/
def ChecksAgain (copies : List (Prototype × Prototype)) (options : Options) (s : Stmt) : Prop :=
  ∀ ⦃k f inLoop s' n' k'⦄, RunsStmt .standard k s s' n' → Checker.In k f inLoop → k.Recalled copies k' →
    ∃ s'' errors, Again (Stmt.Rechecked copies) Stmt.entries (checkStmt options) k' s' s'' k' errors

/-- What stands right behind a `return` is reported in the first check. -/
theorem ends_reportUnreachable {s s' : Stmt} {ss ss' : List Stmt} (h : RunsStmt .standard k s s' n')
    (hreached : Reached .standard s ss) (hlength : ss'.length = ss.length) :
    (reportUnreachable options s' ss').Ends k' () k' [] := by
  refine runs_reportUnreachable.2 ⟨fun _ hreturn => ?_, rfl⟩
  have hsame : s.isReturn = true := by
    cases h <;> first
      | rfl
      | cases hreturn
  rw [hreached rfl hsame] at hlength
  exact List.length_eq_zero_iff.1 hlength

theorem again_checkStmts {ss ss' : List Stmt} (hss : ∀ s ∈ ss, ChecksAgain copies options s)
    (h : RunsStmts .standard k ss ss' n') (hk : k.In f inLoop) (hrecalled : k.Recalled copies k') : ∃ ss'' errors,
      Again (List.Forall₂ (Stmt.Rechecked copies)) (fun parent ss => ss.flatMap (Stmt.entries parent))
        (checkStmts options) k' ss' ss'' k' errors ∧ ss'.length = ss.length := by
  induction ss generalizing k ss' with
  | nil =>
    cases h
    exact ⟨[], [], ⟨.nil, by rw [checkStmts, ends_pure]; exact ⟨rfl, rfl, rfl⟩, fun _ => .nil⟩, rfl⟩
  | cons s ss ih =>
    cases h with
    | @cons _ _ s' _ ss' n₁ _ hrun hreached hrest =>
      obtain ⟨s'', errors, hagain⟩ := hss s List.mem_cons_self hrun hk hrecalled
      obtain ⟨ss'', errors', hall, hlength⟩ := ih (fun s hs => hss s (List.mem_cons_of_mem _ hs)) hrest (hk.next n₁)
        (hrecalled.next n₁)
      refine ⟨s'' :: ss'', errors ++ errors', ⟨.cons hagain.rechecked hall.rechecked, ?_, fun parent =>
        (hagain.reported parent).append (hall.reported parent)⟩, by rw [List.length_cons, List.length_cons, hlength]⟩
      rw [checkStmts]
      exact hagain.ends.bind ((ends_reportUnreachable hrun hreached hlength).quiet_bind hall.ends.then_pure)

theorem again_compound {info : StmtInfo} {decls : List VarDecl} {stmts : List Stmt} (hdecls : ∀ d ∈ decls, d.Plain)
    (hstmts : ∀ s ∈ stmts, ChecksAgain copies options s) : ChecksAgain copies options (.compound info decls stmts) := by
  intro k f inLoop s' n' k' h hk hrecalled
  cases h with
  | compound hrun hbody =>
    have hin : Checker.In { k with env := k.env.openScope } f inLoop := hk.inner
    obtain ⟨decls'', env, errors, hagain, hnext, houter⟩ :=
      again_checkVarDecls hrun hin.scope hrecalled.inner hdecls
    obtain ⟨stmts'', errors', hall, -⟩ := again_checkStmts hstmts hbody (hin.behind hdecls hrun) hnext
    refine ⟨.compound info decls'' stmts'', errors ++ errors', .compound hagain.rechecked hall.rechecked, ?_,
      fun parent => ?_⟩
    · have hopened : openScope.Ends k' () { k' with env := k'.env.openScope } [] := ends_openScope.2 ⟨rfl, rfl⟩
      have hclosed : closeScope.Ends { k' with env } () k' [] := by
        refine ends_closeScope.2 ⟨?_, rfl⟩
        rw [closeScope_of_outer houter]
      rw [checkStmt]
      exact hopened.quiet_bind (hagain.ends.bind (hall.ends.bind_quiet hclosed.then_pure))
    · rw [Stmt.entries, Stmt.entriesAll_eq]
      exact .stmt ((hagain.reported _).append (hall.reported _))

/-- A statement that was checked without a report is checked once more if those under it are. -/
theorem RunsStmt.again_of_stmts {s s' : Stmt} (h : RunsStmt .standard k s s' n') (hplain : s.Plain)
    (hstmts : ∀ t ∈ s.stmts, ChecksAgain copies options t) (hk : k.In f inLoop) (hrecalled : k.Recalled copies k') :
    ∃ s'' errors, Again (Stmt.Rechecked copies) Stmt.entries (checkStmt options) k' s' s'' k' errors := by
  have hexprs := hplain.exprs
  -- a loop is entered and left once more
  let k₁ : Checker := { k' with loopDepth := k'.loopDepth + 1 }
  have hentered : enterLoop.Ends k' () k₁ [] := ends_enterLoop.2 ⟨rfl, rfl⟩
  have hleft : leaveLoop.Ends k₁ () k' [] := ends_leaveLoop.2 ⟨rfl, rfl⟩
  cases h with
  | compound hrun hbody => exact again_compound hplain.vars hstmts (.compound hrun hbody) hk hrecalled
  | @ifThen _ _ _ _ _ _ n₁ _ hcond hthen =>
    obtain ⟨cond'', errors, hagain⟩ :=
      again_checkCondition hcond hk.scope hrecalled.env (hexprs _ (by simp [Stmt.exprs]))
    obtain ⟨then'', errors', hagain'⟩ := hstmts _ (by simp [Stmt.stmts]) hthen (hk.next n₁) (hrecalled.next n₁)
    refine ⟨.ifThen _ cond'' then'', errors ++ errors',
      .ifThen (hagain .ifConditionNotBoolean).rechecked hagain'.rechecked, ?_, fun parent => ?_⟩
    · rw [checkStmt]
      exact (hagain _).ends.bind hagain'.ends.then_pure
    · exact .stmt (((hagain .ifConditionNotBoolean).reported _).append (hagain'.reported _))
  | @ifElse _ _ _ _ _ _ _ _ n₁ n₂ _ hcond hthen helse =>
    obtain ⟨cond'', errors, hagain⟩ :=
      again_checkCondition hcond hk.scope hrecalled.env (hexprs _ (by simp [Stmt.exprs]))
    obtain ⟨then'', errors₁, hagain₁⟩ := hstmts _ (by simp [Stmt.stmts]) hthen (hk.next n₁) (hrecalled.next n₁)
    obtain ⟨else'', errors₂, hagain₂⟩ := hstmts _ (by simp [Stmt.stmts]) helse (hk.next n₂) (hrecalled.next n₂)
    refine ⟨.ifElse _ cond'' then'' else'', errors ++ (errors₁ ++ errors₂),
      .ifElse (hagain .ifConditionNotBoolean).rechecked hagain₁.rechecked hagain₂.rechecked, ?_, fun parent => ?_⟩
    · rw [checkStmt]
      exact (hagain _).ends.bind (hagain₁.ends.bind hagain₂.ends.then_pure)
    · rw [← List.append_assoc]
      have hcond := (hagain .ifConditionNotBoolean).reported
      exact .stmt (((hcond _).append (hagain₁.reported _)).append (hagain₂.reported _))
  | @whileStmt _ _ _ _ _ _ n₁ _ hcond hbody =>
    obtain ⟨cond'', errors, hagain⟩ :=
      @again_checkCondition _ _ k₁ _ _ _ _ hcond hk.scope hrecalled.env (hexprs _ (by simp [Stmt.exprs]))
    obtain ⟨body'', errors', hagain'⟩ := hstmts _ (by simp [Stmt.stmts]) hbody (hk.enter n₁) (hrecalled.enter n₁)
    refine ⟨.whileStmt _ cond'' body'', errors ++ errors',
      .whileStmt (hagain .whileConditionNotBoolean).rechecked hagain'.rechecked, ?_, fun parent => ?_⟩
    · rw [checkStmt]
      exact hentered.quiet_bind ((hagain _).ends.bind (hagain'.ends.bind_quiet hleft.then_pure))
    · exact .stmt (((hagain .whileConditionNotBoolean).reported _).append (hagain'.reported _))
  | @forStmt _ _ _ _ _ _ _ _ _ _ n₁ n₂ n₃ _ hinit hcond hupdate hbody =>
    obtain ⟨body'', errors₄, hagain₄⟩ := hstmts _ (by simp [Stmt.stmts]) hbody (hk.enter n₃) (hrecalled.enter n₃)
    cases hplain with
    | forStmt hi hc hu _ =>
      obtain ⟨init'', errors₁, hagain₁⟩ := @again_checkOption _ _ k₁ _ _ _ _ hinit hk.scope hrecalled.env hi
      obtain ⟨cond'', errors₂, hagain₂⟩ := @again_forCondition _ _ k₁ _ _ _ _ _ hcond hk.scope hrecalled.env hc
      obtain ⟨update'', errors₃, hagain₃⟩ := @again_checkOption _ _ k₁ _ _ _ _ hupdate hk.scope hrecalled.env hu
      have hcond := hagain₂ .forConditionNotBoolean
      refine ⟨.forStmt _ init'' (some cond'') update'' body'', errors₁ ++ (errors₂ ++ (errors₃ ++ errors₄)),
        .forStmt hagain₁.rechecked (.some hcond.rechecked) hagain₃.rechecked hagain₄.rechecked, ?_, fun parent => ?_⟩
      · rw [checkStmt]
        have hfilled (span : Span) (e : Expr) : (fillCondition span (some e)).Ends k₁ e k₁ [] :=
          ends_pure.2 ⟨rfl, rfl, rfl⟩
        refine hentered.quiet_bind (hagain₁.ends.bind ((hfilled _ _).quiet_bind (hcond.ends.bind ?_)))
        exact hagain₃.ends.bind (hagain₄.ends.bind_quiet hleft.then_pure)
      · rw [← List.append_assoc, ← List.append_assoc]
        exact .stmt ((((hagain₁.reported _).append (hcond.reported _)).append (hagain₃.reported _)).append
          (hagain₄.reported _))
  | breakStmt hloop =>
    have hloop' : k'.loopDepth ≠ 0 := by rwa [hrecalled.loopDepth]
    refine ⟨.breakStmt _, [], .breakStmt, ?_, fun parent => .stmt .nil⟩
    exact (runs_checkStmt options _ k' _ k').2 ⟨_, .breakStmt hloop', rfl⟩
  | continueStmt hloop =>
    have hloop' : k'.loopDepth ≠ 0 := by rwa [hrecalled.loopDepth]
    refine ⟨.continueStmt _, [], .continueStmt, ?_, fun parent => .stmt .nil⟩
    exact (runs_checkStmt options _ k' _ k').2 ⟨_, .continueStmt hloop', rfl⟩
  | returnStmt hvalue =>
    obtain ⟨value'', errors, hagain⟩ :=
      again_checkReturn hvalue hk hrecalled fun e he => hexprs e (Option.mem_toList.2 he)
    refine ⟨.returnStmt _ value'', errors, .returnStmt hagain.rechecked, ?_, fun parent => .stmt (hagain.reported _)⟩
    rw [checkStmt]
    exact hagain.ends.then_pure
  | exprStmt hrun =>
    obtain ⟨expr'', errors, hagain⟩ :=
      repeats_checkExpr hk.scope hrecalled.env (hexprs _ (by simp [Stmt.exprs])) hrun
    refine ⟨.exprStmt _ expr'', errors, .exprStmt hagain.rechecked, ?_, fun parent => .stmt (hagain.reported _)⟩
    rw [checkStmt]
    exact hagain.onExpr.ends.then_pure
  | emptyStmt =>
    refine ⟨.emptyStmt _, [], .emptyStmt, ?_, fun parent => .stmt .nil⟩
    rw [checkStmt, ends_pure]
    exact ⟨rfl, rfl, rfl⟩

theorem checksAgain {s : Stmt} (hs : s.Plain) : ChecksAgain copies options s := by
  induction s using Stmt.induct_stmts with
  | h s ih => exact fun _ _ _ _ _ _ h => h.again_of_stmts hs fun t ht => ih t ht (hs.stmts t ht)

end Statements

end VCLang.Typing
