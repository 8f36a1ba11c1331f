/-
One step of the check of a variable. The expressions in its initial value are checked each once, with the variable
itself in scope; what is reported beside that is the variable's own.
-/
import VCLang.Proofs.Verdict.Construct
namespace VCLang.Typing

open Check

variable {env : Env} {k k' : Checker} {errors : List Error} {visits : List ExprVisit}

/-- Where a flat form holds what an expression ends up as, it holds what was checked. -/
theorem ExprVisit.Fills.held {v : ExprVisit} {e : Expr} {b : Arena} {parent : NodeId} (h : v.Fills e)
    (hb : b.Has (e.entries parent)) : ∃ parent', b.Has (v.checked.entries parent') := by
  obtain ⟨n, m, hc⟩ := h
  cases hc with
  | keep => exact ⟨parent, hb⟩
  | widen =>
    rw [Expr.entries, Arena.has_append] at hb
    exact ⟨_, hb.1⟩

theorem exists_fills {es : List Expr} (h : List.Forall₂ ExprVisit.Fills visits es) :
    ∀ v ∈ visits, ∃ e ∈ es, v.Fills e := by
  induction h with
  | nil => simp
  | cons hfirst _ ih =>
    intro v hv
    rcases List.mem_cons.1 hv with rfl | hv
    · exact ⟨_, by simp, hfirst⟩
    · obtain ⟨e, he, hfills⟩ := ih v hv
      exact ⟨e, by simp [he], hfills⟩

/-- How the check of a variable splits, where the names in its initial value are in scope. -/
structure SplitsVar (env : Env) (d d' : VarDecl) (own : (ExprId → Ty) → List Error) (errors : List Error)
    (visits : List ExprVisit) : Prop where
  sources : visits.map (·.source) = d.values
  ran : ∀ v ∈ visits, v.Ran env false
  held : ∀ (b : Arena) parent, b.Has (d'.entries parent) →
    ∀ v ∈ visits, ∃ parent', b.Has (v.checked.entries parent')
  errors : ∀ τ, (∀ v ∈ visits, v.TypedBy τ) → errors.Perm (own τ ++ visits.flatMap (·.errors))

/-- A variable without an initial value. -/
theorem splitsVar_none {d : VarDecl} {own : (ExprId → Ty) → List Error} (hvalues : d.values = [])
    (hown : ∀ τ, own τ = errors) : SplitsVar env d d own errors [] :=
  ⟨hvalues.symm, by simp, by simp, fun τ _ => by simp [hown]⟩

/-- A variable whose initial value is checked as a whole. -/
theorem splitsVar_value {d : VarDecl} {e checked e' : Expr} {n n₁ n₂ : Nat} {first more : List Error}
    {own : (ExprId → Ty) → List Error} (hvalues : d.values = [e])
    (he : (checkExpr env false e).Ends n checked n₁ first) (hc : Converted n₁ checked e' n₂)
    (hown : ∀ τ, τ e.id = checked.type → own τ = more) :
    SplitsVar env d { d with init := some e' } own (first ++ more) [⟨e, n, checked, n₁, first⟩] := by
  constructor
  · exact hvalues.symm
  · exact List.forall_mem_singleton.2 he
  · intro b parent hb
    rw [VarDecl.entries, Arena.has_append] at hb
    let v : ExprVisit := ⟨e, n, checked, n₁, first⟩
    have hfills : v.Fills e' := ⟨n₁, n₂, hc⟩
    simpa using hfills.held hb.1
  · intro τ hτ
    rw [hown τ (hτ ⟨e, n, checked, n₁, first⟩ (by simp)), List.flatMap_singleton]
    exact List.perm_append_comm

/-- An array whose initial values are checked one by one. -/
theorem splits_checkArrayInit {d d' : VarDecl} {element : Ty} {size : Option Nat} {info : ExprInfo}
    {elements : List Expr} (hvalues : d.values = elements)
    (hown : ∀ τ, d.initErrors τ = elementErrors element size info elements τ)
    (h : (checkArrayInit d element size info elements).Ends k d' k' errors) :
    ∃ visits, SplitsVar k.env d d' d.initErrors errors visits := by
  simp only [checkArrayInit, ends_bind, ends_onExpr] at h
  obtain ⟨elements', _, first, more, rfl, ⟨n', helements, rfl⟩, h⟩ := h
  obtain ⟨visits, hsources, hran, hfills, herrors⟩ :=
    (checksRow_checkElements (i := 0) helements).visits (widensInt_elements _ _)
  obtain ⟨hinit, rfl⟩ : (∃ info', d'.init = some (.initList info' elements')) ∧
      more = if elements.length > size.getD elements.length then [⟨.excessElements, info.span⟩] else [] := by
    split_ifs at h ⊢
    · simp only [ends_bind, ends_report, ends_pure] at h
      obtain ⟨_, _, _, _, rfl, ⟨rfl, rfl⟩, rfl, -, rfl⟩ := h
      exact ⟨⟨_, rfl⟩, rfl⟩
    · obtain ⟨rfl, -, rfl⟩ := ends_pure.1 h
      exact ⟨⟨_, rfl⟩, rfl⟩
  obtain ⟨info', hinit⟩ := hinit
  refine ⟨visits, hsources.trans hvalues.symm, hran, ?_, fun τ hτ => ?_⟩
  · intro b parent hb v hv
    rw [VarDecl.entries, hinit, Expr.entriesOption, Expr.entries, Expr.entriesAll_eq, Arena.has_append,
      Arena.has_append] at hb
    obtain ⟨e', he', hfill⟩ := exists_fills hfills v hv
    exact hfill.held (hb.1.1.of_mem he')
  · refine ((herrors τ hτ).append_right _).trans ?_
    rw [hown, elementErrors, List.append_assoc, List.append_assoc]
    exact List.perm_append_comm.append_left _

/-- An initial value that is not of the kind its variable takes. -/
theorem splits_checkWrongInit {d d' : VarDecl} {init : Expr} {f : Fault} (hvalues : d.values = [init])
    (hown : ∀ τ, d.initErrors τ = [⟨f, d.span⟩]) (h : (checkWrongInit d init f).Ends k d' k' errors) :
    ∃ visits, SplitsVar k.env d d' d.initErrors errors visits := by
  simp only [checkWrongInit, ends_bind, ends_onExpr, ends_report, ends_pure] at h
  obtain ⟨e', _, first, _, rfl, ⟨n', he, rfl⟩, _, _, _, _, rfl, ⟨rfl, rfl⟩, rfl, -, rfl⟩ := h
  exact ⟨_, splitsVar_value hvalues he .keep fun τ _ => hown τ⟩

/-- The initial value of a scalar. -/
theorem splits_checkScalarInit {d d' : VarDecl} {init : Expr} (hvalues : d.values = [init])
    (hown : ∀ τ, d.initErrors τ = reported (storeRuling .incompatibleAssignment d.ty (τ init.id)).fault? d.span)
    (h : (checkScalarInit d init).Ends k d' k' errors) :
    ∃ visits, SplitsVar k.env d d' d.initErrors errors visits := by
  simp only [checkScalarInit, ends_bind, ends_onExpr, ends_pure] at h
  obtain ⟨e', _, _, _, rfl, ⟨n', ⟨checked, n₁, first, own, rfl, he, hsettle⟩, rfl⟩, rfl, -, rfl⟩ := h
  obtain ⟨hconverted, rfl⟩ := ends_settle hsettle int_of_storeRuling
  rw [List.append_nil]
  exact ⟨_, splitsVar_value hvalues he hconverted fun τ hτ => by rw [hown, hτ]; rfl⟩

theorem splits_checkInit {d d' : VarDecl} (hvoid : voidFault? d.ident.spelling d.ty = none)
    (h : (checkInit d).Ends k d' k' errors) : ∃ visits, SplitsVar k.env d d' d.initErrors errors visits := by
  unfold checkInit at h
  cases hty : d.ty with
  | array element size =>
    cases hinit : d.init with
    | none =>
      have hvalues : d.values = [] := by cases element <;> simp [VarDecl.values, hty, hinit]
      cases size <;> simp only [hty, hinit] at h
      · obtain ⟨rfl, -, rfl⟩ := ends_report_pure.1 h
        exact ⟨[], splitsVar_none hvalues fun τ => by simp only [VarDecl.initErrors, hty, hinit]⟩
      · obtain ⟨rfl, -, rfl⟩ := ends_pure.1 h
        exact ⟨[], splitsVar_none hvalues fun τ => by simp only [VarDecl.initErrors, hty, hinit]⟩
    | some init =>
      cases init with
      | initList info elements =>
        simp only [hty, hinit] at h
        have hvalues : d.values = elements := by
          rw [hty] at hvoid
          cases element with
          | void => cases hvoid
          | _ => simp [VarDecl.values, hty, hinit]
        exact splits_checkArrayInit hvalues (fun τ => by simp only [VarDecl.initErrors, hty, hinit]) h
      | _ =>
        simp only [hty, hinit] at h
        have hvalues : d.values = d.init.toList := by cases element <;> simp [VarDecl.values, hty, hinit]
        rw [hinit] at hvalues
        exact splits_checkWrongInit hvalues (fun τ => by simp only [VarDecl.initErrors, hty, hinit]) h
  | _ =>
    have hvalues : d.values = d.init.toList := by simp only [VarDecl.values, hty]
    cases hinit : d.init with
    | none =>
      simp only [hty, hinit] at h
      obtain ⟨rfl, -, rfl⟩ := ends_pure.1 h
      rw [hinit] at hvalues
      exact ⟨[], splitsVar_none hvalues fun τ => by simp only [VarDecl.initErrors, hty, hinit]⟩
    | some init =>
      rw [hinit] at hvalues
      cases init with
      | initList info elements =>
        simp only [hty, hinit] at h
        exact splits_checkWrongInit hvalues (fun τ => by simp only [VarDecl.initErrors, hty, hinit]) h
      | _ =>
        simp only [hty, hinit] at h
        exact splits_checkScalarInit hvalues (fun τ => by simp only [VarDecl.initErrors, hty, hinit]) h

/-- The order of errors has no part in this. -/
theorem SplitsVar.perm {d d' : VarDecl} {own : (ExprId → Ty) → List Error} {errors' : List Error}
    (h : SplitsVar env d d' own errors visits) (hperm : errors'.Perm errors) : SplitsVar env d d' own errors' visits :=
  ⟨h.sources, h.ran, h.held, fun τ hτ => hperm.trans (h.errors τ hτ)⟩

/-- What is reported of the name comes before all that is reported of the initial value. -/
theorem SplitsVar.redeclared {d d' : VarDecl} {own : (ExprId → Ty) → List Error} {outer : Env}
    (h : SplitsVar env d d' own errors visits)
    (hown : ∀ τ, d.ownErrors outer τ = redeclaration outer d.ident ++ own τ) :
    SplitsVar env d d' (d.ownErrors outer) (redeclaration outer d.ident ++ errors) visits := by
  refine ⟨h.sources, h.ran, h.held, fun τ hτ => ?_⟩
  rw [hown, List.append_assoc]
  exact (h.errors τ hτ).append_left _

/-- The initial value of a variable of a type that no variable has is only checked. -/
theorem splits_checkOption {d : VarDecl} {init : Option Expr} {first : List Error}
    {own : (ExprId → Ty) → List Error} (hvalues : d.values = d.init.toList)
    (hown : ∀ τ, own τ = first) (h : (checkOption d.init).Ends k init k' errors) :
    ∃ visits, SplitsVar k.env d { d with init } own (first ++ errors) visits := by
  cases hinit : d.init with
  | none =>
    rw [hinit] at h hvalues
    obtain ⟨rfl, -, rfl⟩ := ends_pure.1 h
    rw [← hinit, List.append_nil]
    exact ⟨[], splitsVar_none hvalues hown⟩
  | some e =>
    rw [hinit] at h hvalues
    simp only [checkOption, ends_bind, ends_onExpr, ends_pure] at h
    obtain ⟨e', _, errors, _, rfl, ⟨n', he, rfl⟩, rfl, -, rfl⟩ := h
    rw [List.append_nil]
    exact ⟨_, (splitsVar_value hvalues he .keep fun τ _ => hown τ).perm List.perm_append_comm⟩

/-- The check of a variable, which is in scope in its own initial value. -/
theorem splits_checkVarDecl {d d' : VarDecl} (h : (checkVarDecl d).Ends k d' k' errors) :
    ∃ visits, SplitsVar (k.env.insert d.ident.spelling d.binding) d d' (d.ownErrors k.env) errors visits := by
  unfold checkVarDecl at h
  simp only [ends_bind, ends_get, ends_declare] at h
  obtain ⟨_, _, _, _, rfl, ⟨rfl, rfl, rfl⟩, _, _, _, more, rfl, ⟨rfl, rfl⟩, h⟩ := h
  rw [List.nil_append]
  split at h
  · rename_i f hf
    simp only [ends_bind, ends_report, ends_pure] at h
    obtain ⟨_, _, _, _, rfl, ⟨rfl, rfl⟩, init', _, rest, _, rfl, hinit, rfl, -, rfl⟩ := h
    have hvalues : d.values = d.init.toList := by
      unfold voidFault? at hf
      split at hf
      · rename_i hty
        simp only [VarDecl.values, hty]
      · rename_i hty
        simp only [VarDecl.values, hty]
      · cases hf
    obtain ⟨visits, hsplit⟩ := splits_checkOption hvalues (fun _ => rfl) hinit
    rw [List.append_nil]
    exact ⟨visits, hsplit.redeclared fun τ => by rw [VarDecl.ownErrors, hf]⟩
  · rename_i hvoid
    simp only [ends_bind, ends_modify, ends_pure] at h
    obtain ⟨d', _, own, _, rfl, hd, _, _, _, _, rfl, ⟨rfl, rfl⟩, rfl, -, rfl⟩ := h
    obtain ⟨visits, hsplit⟩ := splits_checkInit hvoid hd
    simp only [List.append_nil]
    exact ⟨visits, hsplit.redeclared fun τ => by rw [VarDecl.ownErrors, hvoid]⟩

end VCLang.Typing
