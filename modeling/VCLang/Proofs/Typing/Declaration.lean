/-
The check of variables decides the judgement of declarations. A check that reports nothing changes nothing
of what is known at a place but the number of the next new expression and, where names are declared, the
innermost scope.
-/
import VCLang.Proofs.Typing.Expression
namespace VCLang.Typing

open Static Check

/-! ## The state -/

section State

variable {α : Type} {k k' : Checker} {u : Unit}

@[simp] theorem runs_onExpr {m : Env → Check Nat α} {a : α} :
    (onExpr m).Runs k a k' ↔ ∃ n', (m k.env).Runs k.nextExpr a n' ∧ k' = { k with nextExpr := n' } := by
  simp only [onExpr, Runs]
  rcases m k.env k.nextExpr with ⟨b, n', errors⟩
  constructor
  · rintro ⟨⟩
    exact ⟨n', rfl, rfl⟩
  · rintro ⟨n'', ⟨⟩, rfl⟩
    rfl

@[simp] theorem runs_openScope : openScope.Runs k u k' ↔ k' = { k with env := k.env.openScope } := runs_modify

@[simp] theorem runs_closeScope : closeScope.Runs k u k' ↔ k' = { k with env := k.env.closeScope } := runs_modify

@[simp] theorem runs_enterLoop : enterLoop.Runs k u k' ↔ k' = { k with loopDepth := k.loopDepth + 1 } :=
  runs_modify

@[simp] theorem runs_leaveLoop : leaveLoop.Runs k u k' ↔ k' = { k with loopDepth := k.loopDepth - 1 } :=
  runs_modify

/-- A name is declared exactly if the innermost scope does not have it. -/
@[simp] theorem runs_declare {ident : Ident} {b : Binding} :
    (declare ident b).Runs k u k' ↔ k.env.retrieveOneLevel ident.spelling = none ∧
      k' = { k with env := k.env.insert ident.spelling b } := by
  unfold declare bindName
  rw [runs_get_bind, runs_ite_report_bind, runs_modify]
  simp

end State

theorem voidFault?_iff {name : String} {t : Ty} : voidFault? name t = none ↔ NotVoid t := by
  unfold voidFault? NotVoid
  split <;> simp_all

/-! ## Initial values -/

/-- An expression that may be absent is checked from a number of the next new expression to another. -/
inductive RunsOption (env : Env) (n : Nat) : Option Expr → Option Expr → Nat → Prop
  | none : RunsOption env n none none n
  | some {e e' : Expr} {n' : Nat} : (checkExpr env false e).Runs n e' n' →
    RunsOption env n (some e) (some e') n'

@[simp] theorem runs_checkOption {k k' : Checker} {o o' : Option Expr} :
    (checkOption o).Runs k o' k' ↔ ∃ n', RunsOption k.env k.nextExpr o o' n' ∧ k' = { k with nextExpr := n' } := by
  cases o with
  | none =>
    simp only [checkOption, runs_pure]
    constructor
    · rintro ⟨rfl, rfl⟩
      exact ⟨_, .none, rfl⟩
    · rintro ⟨_, ⟨⟩, rfl⟩
      exact ⟨rfl, rfl⟩
  | some e =>
    simp only [checkOption, runs_bind, runs_onExpr, runs_pure]
    constructor
    · rintro ⟨e', _, ⟨n', hrun, rfl⟩, rfl, rfl⟩
      exact ⟨n', .some hrun, rfl⟩
    · rintro ⟨n', h, rfl⟩
      cases h with
      | @some _ e' _ hrun => exact ⟨e', _, ⟨n', hrun, rfl⟩, rfl, rfl⟩

theorem runsOption_iff {env : Env} {o : Option Expr} (hΓ : env.scope.Proper) (ho : ∀ e ∈ o, e.Plain) (n : Nat) :
    (∃ o' n', RunsOption env n o o' n') ↔ ∀ e ∈ o, ∃ t, HasType env.scope e t := by
  cases o with
  | none =>
    simp only [Option.not_mem_none, false_implies, implies_true, iff_true]
    exact ⟨none, n, .none⟩
  | some e =>
    have hfinds := finds hΓ (ho e rfl)
    simp only [Option.mem_some_iff, forall_eq']
    constructor
    · rintro ⟨_, _, h⟩
      cases h with
      | some hrun => exact ⟨_, hfinds.sound hrun⟩
    · rintro ⟨t, ht⟩
      obtain ⟨e', n', hrun, -⟩ := hfinds.complete ht n
      exact ⟨_, _, .some hrun⟩

/-- An expression is checked and stored where a type is declared. -/
def RunsStore (env : Env) (target : Ty) (n : Nat) (e e' : Expr) (n' : Nat) : Prop :=
  ∃ checked n₁, (checkExpr env false e).Runs n checked n₁ ∧ target.assignable checked.type = true ∧
    Widened n₁ checked (target.needsIntToFloat checked.type) e' n'

theorem runsStore_iff {env : Env} {target : Ty} {e : Expr} (hΓ : env.scope.Proper) (ht : target.Proper)
    (he : e.Plain) (n : Nat) :
    (∃ e' n', RunsStore env target n e e' n') ↔ ∃ s, HasType env.scope e s ∧ Stores target s := by
  have hfinds := finds hΓ he
  constructor
  · rintro ⟨e', n', checked, n₁, hrun, hassign, -⟩
    have hs := hfinds.sound hrun
    exact ⟨_, hs, (assignable_iff ht (hs.proper hΓ)).1 hassign⟩
  · rintro ⟨s, hs, hstores⟩
    obtain ⟨checked, n₁, hrun, rfl⟩ := hfinds.complete hs n
    obtain ⟨e', n', hw⟩ := Widened.exists n₁ checked (target.needsIntToFloat checked.type)
    exact ⟨e', n', checked, n₁, hrun, (assignable_iff ht (hs.proper hΓ)).2 hstores, hw⟩

/-- Elements are checked one after another and stored in an array of elements of a type. -/
inductive RunsElements (env : Env) (element : Ty) : Nat → List Expr → List Expr → Nat → Prop
  | nil {n : Nat} : RunsElements env element n [] [] n
  | cons {n n₁ n' : Nat} {e e' : Expr} {es es' : List Expr} : RunsStore env element n e e' n₁ →
    RunsElements env element n₁ es es' n' → RunsElements env element n (e :: es) (e' :: es') n'

@[simp] theorem runs_checkElements {env : Env} {element : Ty} {n n' : Nat} {es es' : List Expr} :
    (checkElements env element es).Runs n es' n' ↔ RunsElements env element n es es' n' := by
  induction es generalizing n n' es' with
  | nil =>
    simp only [checkElements, runs_pure]
    constructor
    · rintro ⟨rfl, rfl⟩
      exact .nil
    · rintro ⟨⟩
      exact ⟨rfl, rfl⟩
  | cons e es ih =>
    simp only [checkElements, runs_bind, runs_settle_store, ih, runs_pure]
    constructor
    · rintro ⟨checked, n₁, hrun, e', n₂, ⟨hassign, hw⟩, es', _, hes, rfl, rfl⟩
      exact .cons ⟨checked, n₁, hrun, hassign, hw⟩ hes
    · intro h
      cases h with
      | @cons _ n₂ _ _ e' _ es' hstore hes =>
        obtain ⟨checked, n₁, hrun, hassign, hw⟩ := hstore
        exact ⟨checked, n₁, hrun, e', n₂, ⟨hassign, hw⟩, es', n', hes, rfl, rfl⟩

theorem runsElements_iff {env : Env} {element : Ty} {es : List Expr} (hΓ : env.scope.Proper)
    (ht : element.Proper) (hes : ∀ e ∈ es, e.Plain) (n : Nat) :
    (∃ es' n', RunsElements env element n es es' n') ↔
      ∀ e ∈ es, ∃ s, HasType env.scope e s ∧ Stores element s := by
  induction es generalizing n with
  | nil =>
    simp only [List.not_mem_nil, false_implies, implies_true, iff_true]
    exact ⟨[], n, .nil⟩
  | cons e es ih =>
    have he := runsStore_iff hΓ ht (hes e (by simp))
    replace ih := ih fun e he => hes e (by simp [he])
    rw [List.forall_mem_cons]
    constructor
    · rintro ⟨_, _, h⟩
      cases h with
      | @cons _ n₁ _ _ e' _ es' hstore hrest =>
        exact ⟨(he n).1 ⟨e', n₁, hstore⟩, (ih n₁).1 ⟨es', _, hrest⟩⟩
    · rintro ⟨hstore, hrest⟩
      obtain ⟨e', n₁, hstore⟩ := (he n).2 hstore
      obtain ⟨es', n', hrest⟩ := (ih n₁).2 hrest
      exact ⟨_, _, .cons hstore hrest⟩

/-- A variable is checked with its initial value: the second one is what it is afterwards. -/
inductive RunsInit (env : Env) (n : Nat) : VarDecl → VarDecl → Nat → Prop
  | none {d : VarDecl} : d.ty.isArray = false → d.init = none → RunsInit env n d d n
  | sized {d : VarDecl} {element : Ty} {size : Nat} : d.ty = .array element (some size) → d.init = none →
    RunsInit env n d d n
  | scalar {d : VarDecl} {e e' : Expr} {n' : Nat} : d.ty.isArray = false → d.init = some e →
    (∀ info elements, e ≠ .initList info elements) → RunsStore env d.ty n e e' n' →
    RunsInit env n d { d with init := some e' } n'
  | list {d : VarDecl} {element : Ty} {size : Option Nat} {info : ExprInfo} {es es' : List Expr} {n' : Nat}
    {t : Ty} : d.ty = .array element size → d.init = some (.initList info es) →
    es.length ≤ size.getD es.length → RunsElements env element n es es' n' →
    t = .array element (some (size.getD es.length)) →
    RunsInit env n d { d with ty := t, init := some (.initList (info.typed t) es') } n'

section Init

variable {k k' : Checker} {d d' : VarDecl} {e : Expr}

theorem runs_checkScalarInit :
    (checkScalarInit d e).Runs k d' k' ↔ ∃ e' n', RunsStore k.env d.ty k.nextExpr e e' n' ∧
      d' = { d with init := some e' } ∧ k' = { k with nextExpr := n' } := by
  unfold checkScalarInit
  simp only [runs_bind, runs_onExpr, runs_settle_store, runs_pure]
  constructor
  · rintro ⟨e', _, ⟨n', ⟨checked, n₁, hrun, hassign, hw⟩, rfl⟩, rfl, rfl⟩
    exact ⟨e', n', ⟨checked, n₁, hrun, hassign, hw⟩, rfl, rfl⟩
  · rintro ⟨e', n', ⟨checked, n₁, hrun, hassign, hw⟩, rfl, rfl⟩
    exact ⟨e', _, ⟨n', ⟨checked, n₁, hrun, hassign, hw⟩, rfl⟩, rfl, rfl⟩

@[simp] theorem not_runs_checkWrongInit {f : Fault} : ¬ (checkWrongInit d e f).Runs k d' k' := by
  simp [checkWrongInit]

theorem runs_checkArrayInit {element : Ty} {size : Option Nat} {info : ExprInfo} {es : List Expr} :
    (checkArrayInit d element size info es).Runs k d' k' ↔ ∃ es' n',
      RunsElements k.env element k.nextExpr es es' n' ∧ es.length ≤ size.getD es.length ∧
      d' = { d with ty := .array element (some (size.getD es.length)),
                    init := some (.initList (info.typed (.array element (some (size.getD es.length)))) es') } ∧
      k' = { k with nextExpr := n' } := by
  unfold checkArrayInit
  simp only [runs_bind, runs_onExpr, runs_checkElements]
  constructor
  · rintro ⟨es', _, ⟨n', hes, rfl⟩, h⟩
    rw [runs_ite_report_bind, runs_pure] at h
    exact ⟨es', n', hes, by omega, h.2⟩
  · rintro ⟨es', n', hes, hlength, rfl, rfl⟩
    refine ⟨es', _, ⟨n', hes, rfl⟩, ?_⟩
    rw [runs_ite_report_bind, runs_pure]
    exact ⟨by omega, rfl, rfl⟩

theorem runs_checkInit :
    (checkInit d).Runs k d' k' ↔ ∃ n', RunsInit k.env k.nextExpr d d' n' ∧ k' = { k with nextExpr := n' } := by
  constructor
  · intro h
    unfold checkInit at h
    -- an array without a size, another variable without an initial value, and the four kinds of values
    split at h
    · simp at h
    · rename_i hinit hunsized
      rw [runs_pure] at h
      obtain ⟨rfl, hk⟩ := h
      refine ⟨k.nextExpr, ?_, hk⟩
      by_cases hty : d'.ty.isArray = false
      · exact .none hty hinit
      · obtain ⟨element, size, hty⟩ : ∃ element size, d'.ty = .array element size := by
          simpa [Ty.isArray_eq_false_iff] using hty
        obtain ⟨size, rfl⟩ : ∃ n, size = some n := by
          cases size with
          | none => exact absurd hty (hunsized element)
          | some n => exact ⟨n, rfl⟩
        exact .sized hty hinit
    · rename_i element size info es hty hinit
      obtain ⟨es', n', hes, hlength, rfl, rfl⟩ := runs_checkArrayInit.1 h
      exact ⟨n', .list hty hinit hlength hes rfl, rfl⟩
    · exact absurd h not_runs_checkWrongInit
    · exact absurd h not_runs_checkWrongInit
    · rename_i e hlist hinit _ harray
      obtain ⟨e', n', hstore, rfl, rfl⟩ := runs_checkScalarInit.1 h
      exact ⟨n', .scalar (Ty.isArray_eq_false_iff.2 harray) hinit hlist hstore, rfl⟩
  · rintro ⟨n', h, rfl⟩
    cases h with
    | none hty hinit =>
      rw [Ty.isArray_eq_false_iff] at hty
      unfold checkInit
      split <;> simp_all
    | sized hty hinit => simp only [checkInit, hty, hinit, runs_pure, and_self]
    | scalar hty hinit hlist hstore =>
      rw [Ty.isArray_eq_false_iff] at hty
      unfold checkInit
      split
      · exact absurd ‹d.ty = _› (hty _ _)
      · cases hinit.symm.trans ‹d.init = _›
      · exact absurd ‹d.ty = _› (hty _ _)
      · exact absurd ‹d.ty = _› (hty _ _)
      · cases hinit.symm.trans ‹d.init = _›
        exact absurd rfl (hlist _ _)
      · cases hinit.symm.trans ‹d.init = _›
        exact runs_checkScalarInit.2 ⟨_, n', hstore, rfl, rfl⟩
    | list hty hinit hlength hes ht =>
      subst ht
      simp only [checkInit, hty, hinit]
      exact runs_checkArrayInit.2 ⟨_, n', hes, hlength, rfl, rfl⟩

/-- The check changes neither the name nor the number of a variable. -/
theorem RunsInit.same {env : Env} {n n' : Nat} (h : RunsInit env n d d' n') :
    d'.ident = d.ident ∧ d'.id = d.id := by
  cases h <;> exact ⟨rfl, rfl⟩

/-- A variable is in scope from its own initial value on, and has its size behind it. -/
theorem runs_checkVarDecl :
    (checkVarDecl d).Runs k d' k' ↔ k.env.retrieveOneLevel d.ident.spelling = none ∧ NotVoid d.ty ∧
      ∃ n', RunsInit (k.env.insert d.ident.spelling d.binding) k.nextExpr d d' n' ∧
        k' = { k with env := k.env.insert d.ident.spelling d'.binding, nextExpr := n' } := by
  unfold checkVarDecl
  simp only [runs_bind, runs_get, runs_declare]
  constructor
  · rintro ⟨_, _, ⟨rfl, rfl⟩, _, _, ⟨hnew, rfl⟩, h⟩
    split at h
    · simp at h
    · rename_i hvoid
      simp only [runs_bind, runs_checkInit, runs_modify, runs_pure] at h
      obtain ⟨d'', _, ⟨n', hinit, rfl⟩, _, _, rfl, rfl, rfl⟩ := h
      refine ⟨hnew, voidFault?_iff.1 hvoid, n', hinit, ?_⟩
      rw [hinit.same.1]
  · rintro ⟨hnew, hvoid, n', hinit, rfl⟩
    refine ⟨k, k, ⟨rfl, rfl⟩, (), _, ⟨hnew, rfl⟩, ?_⟩
    rw [voidFault?_iff.2 hvoid]
    simp only [runs_bind, runs_checkInit, runs_modify, runs_pure]
    refine ⟨d', _, ⟨n', hinit, rfl⟩, (), _, rfl, rfl, ?_⟩
    rw [hinit.same.1]

end Init

/-! ## The judgement of declarations -/

theorem retrieveOneLevel_scope {env : Env} {name : String} :
    env.scope.retrieveOneLevel name = none ↔ env.retrieveOneLevel name = none := by
  rw [Env.scope, Scopes.retrieveOneLevel_map, Option.map_eq_none_iff]

section Judgement

variable {env : Env} {k k' : Checker} {d d' : VarDecl}

theorem runsInit_iff (hΓ : env.scope.Proper) (hd : d.Plain) (n : Nat) (t : Ty) :
    (∃ d' n', RunsInit env n d d' n' ∧ d'.ty = t) ↔ Initialised env.scope d.ty d.init t := by
  have hty : d.ty.Proper := hd.ty.proper
  constructor
  · rintro ⟨d', n', h, rfl⟩
    cases h with
    | none hscalar hinit =>
      rw [hinit]
      exact .none hscalar
    | sized hsized hinit =>
      rw [hinit, hsized]
      exact .array
    | @scalar e e' _ hscalar hinit hlist hstore =>
      have he : e.Plain := hd.expr hinit hlist
      obtain ⟨s, hs, hstores⟩ := (runsStore_iff hΓ hty he n).1 ⟨e', n', hstore⟩
      rw [hinit]
      exact .scalar hscalar hs hstores
    | @list element size info es es' _ t harray hinit hlength hes ht =>
      have helement : element.Proper := by rwa [harray] at hty
      have hplain : ∀ e ∈ es, e.Plain := hd.elements hinit
      rw [hinit, harray, ht]
      exact .list ((runsElements_iff hΓ helement hplain n).1 ⟨es', n', hes⟩) hlength
  · intro h
    generalize htype : d.ty = ty at h
    generalize hinit : d.init = init at h
    cases h with
    | none hscalar => exact ⟨d, n, .none (by rwa [htype]) hinit, htype⟩
    | @scalar _ s e hscalar hs hstores =>
      -- a list of initial values has no type
      have hlist (info : ExprInfo) (elements : List Expr) : e ≠ .initList info elements := by
        rintro rfl
        cases hs
      have he : e.Plain := hd.expr hinit hlist
      obtain ⟨e', n', hstore⟩ := (runsStore_iff hΓ hty he n).2 ⟨s, hs, by rwa [htype]⟩
      exact ⟨_, n', .scalar (by rwa [htype]) hinit hlist hstore, htype⟩
    | array => exact ⟨d, n, .sized htype hinit, htype⟩
    | @list element size info es hes hlength =>
      have helement : element.Proper := by rwa [htype] at hty
      have hplain : ∀ e ∈ es, e.Plain := hd.elements hinit
      obtain ⟨es', n', hes'⟩ := (runsElements_iff hΓ helement hplain n).2 hes
      exact ⟨_, n', .list htype hinit hlength hes' rfl, rfl⟩

theorem declares_iff (hΓ : k.env.scope.Proper) (hd : d.Plain) (Γ' : Scope) :
    (∃ d' k', (checkVarDecl d).Runs k d' k' ∧ k'.env.scope = Γ') ↔ Declares k.env.scope d Γ' := by
  have hinner : Scope.Proper (Env.scope (k.env.insert d.ident.spelling d.binding)) := hΓ.insert hd.ty.proper
  simp only [runs_checkVarDecl]
  constructor
  · rintro ⟨d', k', ⟨hnew, hvoid, n', hinit, rfl⟩, rfl⟩
    have ht := (runsInit_iff hinner hd k.nextExpr d'.ty).1 ⟨d', n', hinit, rfl⟩
    exact .intro (retrieveOneLevel_scope.2 hnew) hvoid ht
  · intro h
    cases h with
    | @intro t hnew hvoid ht =>
      obtain ⟨d', n', hinit, rfl⟩ := (runsInit_iff hinner hd k.nextExpr t).2 ht
      exact ⟨d', _, ⟨retrieveOneLevel_scope.1 hnew, hvoid, n', hinit, rfl⟩, rfl⟩

/-- What a list of declarations leaves as it was. -/
theorem frame_checkVarDecls {ds ds' : List VarDecl} (h : (checkVarDecls ds).Runs k ds' k') :
    k'.env.outer = k.env.outer ∧ k'.loopDepth = k.loopDepth ∧ k'.function = k.function := by
  induction ds generalizing k ds' with
  | nil =>
    obtain ⟨-, rfl⟩ := runs_pure.1 h
    exact ⟨rfl, rfl, rfl⟩
  | cons d ds ih =>
    simp only [checkVarDecls, runs_bind, runs_checkVarDecl, runs_pure] at h
    obtain ⟨d', _, ⟨-, -, n', -, rfl⟩, ds', _, hds, -, rfl⟩ := h
    have hframe := ih hds
    exact hframe

theorem declaresAll_iff {ds : List VarDecl} (hΓ : k.env.scope.Proper) (hds : ∀ d ∈ ds, d.Plain) (Γ' : Scope) :
    (∃ ds' k', (checkVarDecls ds).Runs k ds' k' ∧ k'.env.scope = Γ') ↔ DeclaresAll k.env.scope ds Γ' := by
  induction ds generalizing k with
  | nil =>
    simp only [checkVarDecls, runs_pure]
    constructor
    · rintro ⟨_, _, ⟨rfl, rfl⟩, rfl⟩
      exact .nil
    · rintro ⟨⟩
      exact ⟨_, _, ⟨rfl, rfl⟩, rfl⟩
  | cons d ds ih =>
    have hd := hds d (by simp)
    replace ih {k : Checker} (hΓ : k.env.scope.Proper) := ih hΓ fun d hd => hds d (by simp [hd])
    simp only [checkVarDecls, runs_bind, runs_pure]
    constructor
    · rintro ⟨_, k', ⟨d', k₁, hrun, ds', _, hrest, rfl, rfl⟩, rfl⟩
      have hdecl := (declares_iff hΓ hd _).1 ⟨d', k₁, hrun, rfl⟩
      exact .cons hdecl ((ih (hdecl.proper hΓ hd)).1 ⟨ds', k', hrest, rfl⟩)
    · intro h
      cases h with
      | cons hdecl hrest =>
        have hΓ₁ := hdecl.proper hΓ hd
        obtain ⟨d', k₁, hrun, rfl⟩ := (declares_iff hΓ hd _).2 hdecl
        obtain ⟨ds', k', hrun', rfl⟩ := (ih hΓ₁).2 hrest
        exact ⟨_, k', ⟨d', k₁, hrun, ds', k', hrun', rfl, rfl⟩, rfl⟩

theorem proper_behind {ds ds' : List VarDecl} (h : (checkVarDecls ds).Runs k ds' k') (hΓ : k.env.scope.Proper)
    (hds : ∀ d ∈ ds, d.Plain) : k'.env.scope.Proper :=
  ((declaresAll_iff hΓ hds _).1 ⟨ds', k', h, rfl⟩).proper hΓ hds

end Judgement

end VCLang.Typing
