/-
One step of the check of a statement. Its expressions, its variables and the statements under it are checked each once,
in the order in which they stand, in places that follow from its own.
-/
import VCLang.Proofs.Verdict.VariableStep
namespace VCLang.Typing

open Check

variable {options : Options} {k k' : Checker} {errors : List Error} {visits : List ExprVisit}

/-! ## Lists of parts -/

/-- The check of an expression from a place on. -/
def ExprVisit.at (k : Checker) (whole : Bool) (v : ExprVisit) : Visit :=
  ⟨{ k with nextExpr := v.start }, .expr whole v.source, .expr whole v.checked, v.errors⟩

theorem ExprVisit.Ran.at {v : ExprVisit} {whole : Bool} (h : v.Ran k.env whole) : (v.at k whole).Ran options :=
  ⟨_, ends_map.2 ⟨_, ends_onExpr.2 ⟨_, h, rfl⟩, rfl⟩⟩

theorem ExprVisit.typedBy_at {v : ExprVisit} {whole : Bool} {τ : ExprId → Ty} (h : (v.at k whole).TypedBy τ) :
    v.TypedBy τ := h whole whole v.source v.checked rfl rfl

/-- Expressions that are checked as parts, from a place on. -/
theorem typedBy_of_at {whole : Bool} {τ : ExprId → Ty}
    (h : ∀ w ∈ visits.map (ExprVisit.at k whole), w.TypedBy τ) : ∀ v ∈ visits, v.TypedBy τ :=
  fun _ hv => ExprVisit.typedBy_at (h _ (List.mem_map_of_mem hv))

theorem flatMap_at (k : Checker) (whole : Bool) (visits : List ExprVisit) :
    (visits.map (ExprVisit.at k whole)).flatMap (·.errors) = visits.flatMap (·.errors) := by
  rw [List.flatMap_map]
  rfl

/-- The checks of variables one after another: each is in the scopes that those before it have left. -/
theorem visits_checkVarDecls (options : Options) {ds ds' : List VarDecl} (h : (checkVarDecls ds).Ends k ds' k' errors) :
    ∃ ws : List Visit, ws.map (·.construct) = ds.map .var ∧ (∀ w ∈ ws, w.Ran options) ∧
      (∀ w ∈ ws, ∃ d' ∈ ds', w.result = .var d') ∧
      (∀ w ∈ ws, ∃ bs ⊆ ds'.map VarDecl.bound, w.place.env = k.env.bindAll bs ∧
        w.place = { k with env := w.place.env, nextExpr := w.place.nextExpr }) ∧
      k' = { k with env := k.env.bindAll (ds'.map VarDecl.bound), nextExpr := k'.nextExpr } ∧
      errors = ws.flatMap (·.errors) := by
  induction ds generalizing k ds' errors with
  | nil =>
    obtain ⟨rfl, rfl, rfl⟩ := ends_pure.1 h
    exact ⟨[], rfl, by simp, by simp, by simp, rfl, rfl⟩
  | cons d ds ih =>
    simp only [checkVarDecls, ends_bind, ends_pure] at h
    obtain ⟨d', k₁, first, _, rfl, hd, ds', _, more, _, rfl, hds, rfl, rfl, rfl⟩ := h
    obtain ⟨n', own, hinit, -, rfl⟩ := elaborates_checkVarDecl hd
    obtain ⟨ws, hconstructs, hran, hresults, hplaces, hafter, rfl⟩ := ih hds
    let w : Visit := ⟨k, .var d, .var d', first⟩
    have hbound : (d.ident.spelling, d'.binding) = d'.bound := by
      cases hinit <;> rfl
    have hw : w.Ran options := ⟨_, ends_map.2 ⟨d', hd, rfl⟩⟩
    refine ⟨w :: ws, by simp [w, hconstructs], List.forall_mem_cons.2 ⟨hw, hran⟩,
      List.forall_mem_cons.2 ⟨⟨d', by simp, rfl⟩, ?_⟩, List.forall_mem_cons.2 ⟨⟨[], by simp, rfl, rfl⟩, ?_⟩, ?_, ?_⟩
    · intro v hv
      obtain ⟨c, hc, hresult⟩ := hresults v hv
      exact ⟨c, List.mem_cons_of_mem _ hc, hresult⟩
    · intro v hv
      obtain ⟨bs, hbs, henv, hplace⟩ := hplaces v hv
      refine ⟨d'.bound :: bs, ?_, ?_, hplace⟩
      · rw [List.map_cons]
        exact List.cons_subset_cons _ hbs
      · rw [henv, ← hbound]
        rfl
    · refine hafter.trans ?_
      rw [List.map_cons, ← hbound]
      rfl
    · rw [List.append_nil, List.flatMap_cons]

theorem unreachedErrors_cons (options : Options) (s : Stmt) (ss : List Stmt) :
    unreachedErrors options (s :: ss) =
      (if s.isReturn && options.reportUnreachable then ss.head?.toList.map fun t => ⟨.statementNotReached, t.span⟩
        else []) ++ unreachedErrors options ss := by
  unfold unreachedErrors Stmt.unreached
  cases ss with
  | nil => simp
  | cons t ts => cases hs : s.isReturn <;> cases options.reportUnreachable <;> simp [hs]

theorem of_ends_reportUnreachable {s : Stmt} {ss : List Stmt} {u : Unit}
    (h : (reportUnreachable options s ss).Ends k u k' errors) : k' = k ∧
      errors = if s.isReturn && options.reportUnreachable then
        ss.head?.toList.map fun t => ⟨.statementNotReached, t.span⟩ else [] := by
  cases ss with
  | nil =>
    obtain ⟨-, rfl, rfl⟩ := ends_pure.1 h
    exact ⟨rfl, by simp⟩
  | cons t ts =>
    rw [reportUnreachable] at h
    split_ifs at h ⊢
    · exact ends_report.1 h
    · obtain ⟨-, rfl, rfl⟩ := ends_pure.1 h
      exact ⟨rfl, rfl⟩

/-- The checks of statements one after another, all at the same place. -/
theorem visits_checkStmts {ss ss' : List Stmt} (h : (checkStmts options ss).Ends k ss' k' errors) :
    ∃ ws : List Visit, ws.map (·.construct) = ss.map .stmt ∧ (∀ w ∈ ws, w.Ran options) ∧
      (∀ w ∈ ws, ∃ s' ∈ ss', w.result = .stmt s') ∧
      (∀ w ∈ ws, w.place = { k with nextExpr := w.place.nextExpr }) ∧
      errors.Perm (unreachedErrors options ss ++ ws.flatMap (·.errors)) := by
  induction ss generalizing k ss' errors with
  | nil =>
    obtain ⟨rfl, rfl, rfl⟩ := ends_pure.1 h
    exact ⟨[], rfl, by simp, by simp, by simp, by simp [unreachedErrors, Stmt.unreached]⟩
  | cons s ss ih =>
    simp only [checkStmts, ends_bind, ends_pure] at h
    obtain ⟨s', _, first, _, rfl, hs, _, _, own, _, rfl, hreport, ss', _, more, _, rfl, hrest, rfl, rfl, rfl⟩ := h
    obtain ⟨n₁, -, rfl⟩ := elaboratesStmtAs options s hs
    obtain ⟨rfl, rfl⟩ := of_ends_reportUnreachable hreport
    obtain ⟨ws, hconstructs, hran, hresults, hplaces, herrors⟩ := ih hrest
    let w : Visit := ⟨k, .stmt s, .stmt s', first⟩
    have hw : w.Ran options := ⟨_, ends_map.2 ⟨s', hs, rfl⟩⟩
    refine ⟨w :: ws, by simp [w, hconstructs], List.forall_mem_cons.2 ⟨hw, hran⟩,
      List.forall_mem_cons.2 ⟨⟨s', by simp, rfl⟩, ?_⟩, List.forall_mem_cons.2 ⟨rfl, hplaces⟩, ?_⟩
    · intro v hv
      obtain ⟨c, hc, hresult⟩ := hresults v hv
      exact ⟨c, List.mem_cons_of_mem _ hc, hresult⟩
    · rw [unreachedErrors_cons, List.append_nil, List.flatMap_cons]
      refine ((herrors.append_left _).append_left _).trans (List.perm_iff_count.2 fun x => ?_)
      simp only [List.count_append, w]
      omega

/-! ## Statements -/

/-- The place of the parts of a statement that is no block. -/
def insideStmt (s : Stmt) (k : Checker) : Checker :=
  { k with loopDepth := k.loopDepth + if s.isLoop then 1 else 0 }

/-- What is reported of a whole may stand behind what is reported of its first part. -/
theorem perm_own_first (first own more : List Error) : (first ++ own ++ more).Perm (own ++ (first ++ more)) := by
  rw [← List.append_assoc]
  exact List.perm_append_comm.append_right more

/-- A statement that is no block, by its expressions and the statements in it. -/
theorem splits_parts {s s' : Stmt} (visits : List ExprVisit) (ws : List Visit)
    (hs : ∀ info decls stmts, s ≠ .compound info decls stmts)
    (hsources : visits.map (·.source) = s.exprs) (hran : ∀ v ∈ visits, v.Ran k.env s.isExpression)
    (hfills : ∀ v ∈ visits, ∃ e ∈ s'.exprs, v.Fills e) (hconstructs : ws.map (·.construct) = s.stmts.map .stmt)
    (hran' : ∀ w ∈ ws, w.Ran options) (hresults : ∀ w ∈ ws, ∃ t ∈ s'.stmts, w.result = .stmt t)
    (hplaces : ∀ w ∈ ws, w.place = { insideStmt s k with nextExpr := w.place.nextExpr })
    (herrors : ∀ τ, (∀ v ∈ visits, v.TypedBy τ) →
      errors.Perm (s.ownErrors options k τ ++ (visits.flatMap (·.errors) ++ ws.flatMap (·.errors)))) :
    ∃ ws, Visit.Splits options ⟨k, .stmt s, .stmt s', errors⟩ ws := by
  have hvars : s.vars = [] := by
    cases s with
    | compound info decls stmts => exact absurd rfl (hs info decls stmts)
    | _ => rfl
  have hinner : (Construct.stmt s).inner k.env = k.env := by
    cases s with
    | compound info decls stmts => exact absurd rfl (hs info decls stmts)
    | _ => rfl
  refine ⟨visits.map (ExprVisit.at (insideStmt s k) s.isExpression) ++ ws, ?_, ?_, ?_, ?_, ?_⟩
  · rw [List.map_append, List.map_map, hconstructs, Construct.parts, hvars, ← hsources, List.map_map]
    rfl
  · intro w hw
    rcases List.mem_append.1 hw with hw | hw
    · obtain ⟨v, hv, rfl⟩ := List.mem_map.1 hw
      exact ExprVisit.Ran.at (k := insideStmt s k) (hran v hv)
    · exact hran' w hw
  · intro w hw
    rcases List.mem_append.1 hw with hw | hw
    · obtain ⟨v, hv, rfl⟩ := List.mem_map.1 hw
      refine ⟨fun b parent hb => ?_, ⟨[], by simp, hinner.symm⟩, rfl, rfl⟩
      obtain ⟨e, he, hfill⟩ := hfills v hv
      exact hfill.held ((held_stmt hb).2.1 e he)
    · have hplace := hplaces w hw
      refine ⟨fun b parent hb => ?_, ⟨[], by simp, ?_⟩, ?_, ?_⟩
      · obtain ⟨t, ht, hresult⟩ := hresults w hw
        rw [hresult]
        exact ⟨_, (held_stmt hb).2.2 t ht⟩
      · rw [hplace]
        exact hinner.symm
      · rw [hplace]
        rfl
      · rw [hplace]
        rfl
  · rintro _ _ _ _ _ _ ⟨⟩
  · intro τ hτ
    rw [List.flatMap_append, flatMap_at]
    exact herrors τ (typedBy_of_at fun w hw => hτ w (List.mem_append_left _ hw))

/-- A condition, which is reported behind what is reported in it. -/
theorem ends_checkCondition {fault : Ty → Fault} {cond cond' : Expr}
    (h : (checkCondition fault cond).Ends k cond' k' errors) :
    ∃ n' first, (checkExpr k.env false cond).Ends k.nextExpr cond' n' first ∧ k' = { k with nextExpr := n' } ∧
      ∀ τ : ExprId → Ty, τ cond.id = cond'.type →
        errors = first ++ reported (conditionFault? fault (τ cond.id)) cond.span := by
  simp only [checkCondition, ends_bind, ends_onExpr, ends_reportOption, ends_pure] at h
  obtain ⟨cond', _, first, _, rfl, ⟨n', hc, rfl⟩, _, _, own, _, rfl, ⟨rfl, rfl⟩, rfl, rfl, rfl⟩ := h
  refine ⟨n', first, hc, rfl, fun τ hτ => ?_⟩
  rw [hτ, ← (elaborates_checkExpr hc).span, List.append_nil]
  rfl

/-- An expression that may be absent. -/
theorem visits_checkOption {o o' : Option Expr} (h : (checkOption o).Ends k o' k' errors) :
    ∃ visits : List ExprVisit, visits.map (·.source) = o.toList ∧ (∀ v ∈ visits, v.Ran k.env false) ∧
      visits.map (·.checked) = o'.toList ∧ k' = { k with nextExpr := k'.nextExpr } ∧
      errors = visits.flatMap (·.errors) := by
  cases o with
  | none =>
    obtain ⟨rfl, rfl, rfl⟩ := ends_pure.1 h
    exact ⟨[], rfl, by simp, rfl, rfl, rfl⟩
  | some e =>
    simp only [checkOption, ends_bind, ends_onExpr, ends_pure] at h
    obtain ⟨e', _, first, _, rfl, ⟨n', he, rfl⟩, rfl, rfl, rfl⟩ := h
    refine ⟨[⟨e, k.nextExpr, e', n', first⟩], rfl, List.forall_mem_singleton.2 he, rfl, rfl, ?_⟩
    rw [List.append_nil, List.flatMap_singleton]

/-- What is checked stands as it is where it was. -/
theorem fills_of_checked {es : List Expr} (h : visits.map (·.checked) = es) : ∀ v ∈ visits, ∃ e ∈ es, v.Fills e :=
  fun v hv => ⟨v.checked, h ▸ List.mem_map_of_mem hv, .refl v⟩

/-- The visit of a statement. -/
theorem ran_stmt {s s' : Stmt} (h : (checkStmt options s).Ends k s' k' errors) :
    (⟨k, .stmt s, .stmt s', errors⟩ : Visit).Ran options := ⟨_, ends_map.2 ⟨s', h, rfl⟩⟩

/-- The check of what a `return` gives back: the value may be converted, and what is reported comes from its type. -/
theorem ends_checkReturn {span : Span} {value value' : Option Expr}
    (h : (checkReturn span value).Ends k value' k' errors) : ∃ checked k₁ first,
      (checkOption value).Ends k checked k₁ first ∧ (∀ e ∈ checked, ∃ e' ∈ value', ∃ n m, Converted n e e' m) ∧
        errors = first ++ returnErrors k.function span (valueType checked) := by
  unfold checkReturn at h
  simp only [ends_bind, ends_get] at h
  obtain ⟨checked, _, first, _, rfl, hchecked, _, _, _, own, rfl, ⟨rfl, rfl, rfl⟩, h⟩ := h
  obtain ⟨n₁, -, rfl⟩ := elaborates_checkOption hchecked
  have hkeep : ∀ e ∈ checked, ∃ e' ∈ checked, ∃ n m, Converted n e e' m := fun e he => ⟨e, he, 0, 0, .keep⟩
  suffices hown : (∀ e ∈ checked, ∃ e' ∈ value', ∃ n m, Converted n e e' m) ∧
      own = returnErrors k.function span (valueType checked) from
    ⟨checked, _, first, hchecked, hown.1, by rw [hown.2, List.nil_append]⟩
  unfold returnErrors
  split at h
  · rename_i hf
    obtain ⟨rfl, -, rfl⟩ := ends_pure.1 h
    exact ⟨hkeep, by rw [show k.function = none from hf]⟩
  rename_i f hf
  rw [show k.function = some f from hf]
  split_ifs at h ⊢ with hmain
  · simp only [ends_bind, ends_reportOption, ends_pure] at h
    obtain ⟨_, _, _, _, rfl, ⟨rfl, rfl⟩, rfl, -, rfl⟩ := h
    exact ⟨hkeep, by simp [hmain, reported]⟩
  · obtain ⟨n', hsettle, -⟩ := ends_onExpr.1 h
    cases checked with
    | none =>
      simp only [settleOption, ends_bind, ends_reportOption, ends_pure] at hsettle
      obtain ⟨_, _, _, _, rfl, ⟨rfl, rfl⟩, rfl, -, rfl⟩ := hsettle
      exact ⟨hkeep, by simp [hmain, reported]⟩
    | some e =>
      simp only [settleOption, ends_map] at hsettle
      obtain ⟨e', hsettle, rfl⟩ := hsettle
      obtain ⟨hc, rfl⟩ := ends_settle hsettle int_of_storeRuling
      refine ⟨fun d hd => ?_, by simp [hmain, reported]⟩
      cases hd
      exact ⟨e', rfl, _, _, hc⟩

/-- A `return`. -/
theorem splits_returnStmt {info : StmtInfo} {value value' : Option Expr}
    (h : (checkReturn info.span value).Ends k value' k' errors) :
    ∃ ws, Visit.Splits options ⟨k, .stmt (.returnStmt info value), .stmt (.returnStmt info value'), errors⟩ ws := by
  obtain ⟨checked, _, first, hchecked, hconverted, rfl⟩ := ends_checkReturn h
  cases value with
  | none =>
    obtain ⟨rfl, -, rfl⟩ := ends_pure.1 hchecked
    refine splits_parts [] [] (by simp) rfl (by simp) (by simp) rfl (by simp) (by simp) (by simp) ?_
    intro τ _
    simp [Stmt.ownErrors, valueType]
  | some e =>
    simp only [checkOption, ends_bind, ends_onExpr, ends_pure] at hchecked
    obtain ⟨e', _, first, _, rfl, ⟨n₁, he, rfl⟩, rfl, -, rfl⟩ := hchecked
    obtain ⟨e'', he'', hc⟩ := hconverted e' rfl
    refine splits_parts [⟨e, k.nextExpr, e', n₁, first⟩] [] (by simp) rfl
      (List.forall_mem_singleton.2 he) ?_ rfl (by simp) (by simp) (by simp) ?_
    · refine List.forall_mem_singleton.2 ⟨e'', ?_, hc⟩
      cases he''
      exact List.mem_singleton.2 rfl
    · intro τ hτ
      have htype : τ e.id = e'.type := hτ ⟨e, k.nextExpr, e', n₁, first⟩ (by simp)
      rw [Stmt.ownErrors, htype]
      simpa [valueType] using List.perm_append_comm

/-- A `break` or a `continue`. -/
theorem ends_requireLoop {f : Fault} {span : Span} {u : Unit} (h : (requireLoop f span).Ends k u k' errors) :
    errors = if k.loopDepth = 0 then [⟨f, span⟩] else [] := by
  simp only [requireLoop, ends_bind, ends_get] at h
  obtain ⟨_, _, _, _, rfl, ⟨rfl, rfl, rfl⟩, h⟩ := h
  split_ifs at h ⊢
  · exact (ends_report.1 h).2
  · exact (ends_pure.1 h).2.2

/-- The condition of a `for` loop. One that is omitted is put in, and nothing is wrong with it. -/
theorem visits_forCondition {span : Span} {fault : Ty → Fault} {cond : Option Expr} {cond' : Expr}
    (h : (fillCondition span cond >>= checkCondition fault).Ends k cond' k' errors) :
    ∃ visits : List ExprVisit, visits.map (·.source) = cond.toList ∧ (∀ v ∈ visits, v.Ran k.env false) ∧
      (∀ v ∈ visits, v.checked = cond') ∧ k' = { k with nextExpr := k'.nextExpr } ∧
      ∀ τ, (∀ v ∈ visits, v.TypedBy τ) →
        errors.Perm (cond.toList.flatMap (fun e => reported (conditionFault? fault (τ e.id)) e.span) ++
          visits.flatMap (·.errors)) := by
  cases cond with
  | none =>
    simp only [fillCondition, checkCondition, ends_bind, ends_onExpr, ends_reportOption, ends_pure, bind_assoc,
      pure_bind, checkExpr] at h
    obtain ⟨id, _, _, _, rfl, ⟨_, hfresh, rfl⟩, _, _, _, _, rfl, ⟨_, ⟨rfl, rfl, rfl⟩, rfl⟩, h⟩ := h
    cases hfresh
    obtain ⟨_, _, _, _, rfl, ⟨rfl, rfl⟩, rfl, rfl, rfl⟩ := h
    exact ⟨[], rfl, by simp, by simp, rfl, fun _ _ => .nil⟩
  | some cond =>
    rw [fillCondition, pure_bind] at h
    obtain ⟨n', first, hc, rfl, herrors⟩ := ends_checkCondition h
    refine ⟨[⟨cond, k.nextExpr, cond', n', first⟩], rfl, List.forall_mem_singleton.2 hc, by simp, rfl, fun τ hτ => ?_⟩
    rw [herrors τ (hτ ⟨cond, k.nextExpr, cond', n', first⟩ (by simp))]
    simpa using List.perm_append_comm

theorem splits_forStmt {info : StmtInfo} {init cond update : Option Expr} {body s' : Stmt}
    (h : (checkStmt options (.forStmt info init cond update body)).Ends k s' k' errors) :
    ∃ ws, Visit.Splits options ⟨k, .stmt (.forStmt info init cond update body), .stmt s', errors⟩ ws := by
  simp only [checkStmt, ends_bind, ends_enterLoop, ends_leaveLoop, ends_pure] at h
  obtain ⟨_, _, _, _, rfl, ⟨rfl, rfl⟩, init', _, first, _, rfl, hinit, filled, k₁, second, _, rfl, hfill, cond', k₂,
    second', _, rfl, hcheck, h⟩ := h
  obtain ⟨vi, hisources, hiran, hichecked, hk₀, rfl⟩ := visits_checkOption hinit
  obtain ⟨vc, hcsources, hcran, hcchecked, hk₂, hcerrors⟩ :=
    visits_forCondition (ends_bind.2 ⟨filled, k₁, second, second', rfl, hfill, hcheck⟩)
  obtain ⟨update', _, third, _, rfl, hupdate, body', _, last, _, rfl, hbody, _, _, _, _, rfl, ⟨rfl, rfl⟩, rfl, -,
    rfl⟩ := h
  obtain ⟨vu, husources, huran, huchecked, hk₃, rfl⟩ := visits_checkOption hupdate
  rw [hk₀] at hcran hk₂
  rw [hk₂] at huran hk₃
  rw [hk₃] at hbody
  refine splits_parts (vi ++ vc ++ vu) [⟨_, .stmt body, .stmt body', last⟩] (by simp) ?_ ?_ ?_ rfl
    (List.forall_mem_singleton.2 (ran_stmt hbody)) ?_ ?_ ?_
  · rw [List.map_append, List.map_append, hisources, hcsources, husources]
    rfl
  · simp only [List.forall_mem_append]
    exact ⟨⟨hiran, hcran⟩, huran⟩
  · have hparts : (Stmt.forStmt info init' (some cond') update' body').exprs =
        init'.toList ++ [cond'] ++ update'.toList := rfl
    simp only [List.forall_mem_append, hparts]
    refine ⟨⟨fun v hv => ?_, fun v hv => ⟨cond', by simp, ?_⟩⟩, fun v hv => ?_⟩
    · obtain ⟨e, he, hfill⟩ := fills_of_checked hichecked v hv
      exact ⟨e, by simp [he], hfill⟩
    · rw [← hcchecked v hv]
      exact .refl v
    · obtain ⟨e, he, hfill⟩ := fills_of_checked huchecked v hv
      exact ⟨e, by simp [he], hfill⟩
  · exact List.forall_mem_singleton.2 ⟨body', by simp [Stmt.stmts], rfl⟩
  · exact List.forall_mem_singleton.2 rfl
  · intro τ hτ
    simp only [List.forall_mem_append] at hτ
    have hown : (Stmt.forStmt info init cond update body).ownErrors options k τ =
        cond.toList.flatMap fun e => reported (conditionFault? .forConditionNotBoolean (τ e.id)) e.span := by
      cases cond <;> simp [Stmt.ownErrors]
    have hcond := hcerrors τ hτ.1.2
    rw [hown]
    refine List.perm_iff_count.2 fun x => ?_
    have hcount := List.perm_iff_count.1 hcond x
    simp only [List.count_append, List.flatMap_append, List.flatMap_singleton, List.nil_append, List.append_nil]
      at hcount ⊢
    omega

/-- A construct whose parts are the variables and the statements of a block, which are checked from the place `inner`
on: the names `bs` are declared there before, and `own` is reported but for unreached statements. -/
theorem splits_block {v : Visit} {inner k₁ k₂ : Checker} {decls decls' : List VarDecl} {stmts stmts' : List Stmt}
    {first more : List Error} (bs : List (String × Binding)) (own : List Error)
    (hdecls : (checkVarDecls decls).Ends inner decls' k₁ first)
    (hstmts : (checkStmts options stmts).Ends k₁ stmts' k₂ more)
    (hexpr : ∀ whole e, v.construct ≠ .expr whole e)
    (hparts : v.construct.parts = decls.map .var ++ stmts.map .stmt)
    (hheld : ∀ (b : Arena) parent, b.Has (v.result.entries parent) → ∃ parent',
      (∀ d ∈ decls', b.Has (d.entries parent')) ∧ ∀ s ∈ stmts', b.Has (s.entries parent'))
    (hdeclares : v.result.declares = bs ++ decls'.map VarDecl.bound)
    (henv : inner.env = (v.construct.inner v.place.env).bindAll bs)
    (hdepth : inner.loopDepth = v.place.loopDepth + if v.construct.isLoop then 1 else 0)
    (hfunction : inner.function = v.construct.function v.place.function)
    (hown : ∀ τ, (v.construct.ownErrors options v.place τ).Perm (own ++ unreachedErrors options stmts))
    (herrors : v.errors.Perm (own ++ first ++ more)) : ∃ ws, v.Splits options ws := by
  obtain ⟨vs, hvars, hran, hresults, hplaces, hk₁, rfl⟩ := visits_checkVarDecls options hdecls
  obtain ⟨ss, hss, hran', hresults', hplaces', hmore⟩ := visits_checkStmts hstmts
  rw [hk₁] at hplaces'
  refine ⟨vs ++ ss, ?_, List.forall_mem_append.2 ⟨hran, hran'⟩,
    List.forall_mem_append.2 ⟨fun w hw => ?_, fun w hw => ?_⟩, ?_, fun τ _ => ?_⟩
  · rw [List.map_append, hvars, hss, hparts]
  · obtain ⟨d', hd', hresult⟩ := hresults w hw
    obtain ⟨cs, hcs, hwenv, hplace⟩ := hplaces w hw
    refine ⟨fun b parent hb => ?_, ⟨bs ++ cs, ?_, ?_⟩, ?_, ?_⟩
    · obtain ⟨parent', hvars, -⟩ := hheld b parent hb
      rw [hresult]
      exact ⟨parent', hvars d' hd'⟩
    · rw [hdeclares]
      exact List.append_subset.2 ⟨List.subset_append_left _ _, fun x hx => List.mem_append_right _ (hcs hx)⟩
    · rw [hwenv, henv, Scopes.bindAll_append]
    · rw [hplace]
      exact hdepth
    · rw [hplace]
      exact hfunction
  · obtain ⟨s', hs', hresult⟩ := hresults' w hw
    refine ⟨fun b parent hb => ?_, ⟨_, List.Subset.refl _, ?_⟩, ?_, ?_⟩
    · obtain ⟨parent', -, hstmts⟩ := hheld b parent hb
      rw [hresult]
      exact ⟨parent', hstmts s' hs'⟩
    · rw [hplaces' w hw, hdeclares, Scopes.bindAll_append, ← henv]
    · rw [hplaces' w hw]
      exact hdepth
    · rw [hplaces' w hw]
      exact hfunction
  · intro _ _ whole _ e _ he
    exact absurd he (hexpr whole e)
  · refine List.perm_iff_count.2 fun x => ?_
    have hall := List.perm_iff_count.1 herrors x
    have hown := List.perm_iff_count.1 (hown τ) x
    have hmore := List.perm_iff_count.1 hmore x
    simp only [List.count_append, List.flatMap_append] at hall hown hmore ⊢
    omega

/-- The check of a block, which opens a scope. -/
theorem splits_compound {info : StmtInfo} {decls : List VarDecl} {stmts : List Stmt} {s' : Stmt}
    (h : (checkStmt options (.compound info decls stmts)).Ends k s' k' errors) :
    ∃ ws, Visit.Splits options ⟨k, .stmt (.compound info decls stmts), .stmt s', errors⟩ ws := by
  simp only [checkStmt, ends_bind, ends_openScope, ends_closeScope, ends_pure] at h
  obtain ⟨_, _, _, _, rfl, ⟨rfl, rfl⟩, decls', k₁, first, _, rfl, hdecls, stmts', k₂, more, _, rfl, hstmts, _, _, _, _,
    rfl, ⟨rfl, rfl⟩, rfl, -, rfl⟩ := h
  refine splits_block [] [] hdecls hstmts (by simp) ?_ (fun b parent hb => ?_) rfl rfl rfl rfl
    (fun τ => .refl _) ?_
  · simp [Construct.parts, Stmt.vars, Stmt.exprs, Stmt.stmts]
  · obtain ⟨hvars, -, hstmts⟩ := held_stmt hb
    exact ⟨_, hvars, hstmts⟩
  · simp

/-- A statement with a condition that is reported with a fault of its own, by its condition and the statements in
it. -/
theorem splits_conditional {s s' : Stmt} {fault : Ty → Fault} {cond cond' : Expr} {k₁ : Checker}
    {first : List Error} (ws : List Visit) (hcond : (checkCondition fault cond).Ends (insideStmt s k) cond' k₁ first)
    (hs : ∀ info decls stmts, s ≠ .compound info decls stmts) (hwhole : s.isExpression = false)
    (hexprs : s.exprs = [cond]) (hexprs' : s'.exprs = [cond'])
    (hown : ∀ τ, s.ownErrors options k τ = reported (conditionFault? fault (τ cond.id)) cond.span)
    (hconstructs : ws.map (·.construct) = s.stmts.map .stmt) (hran : ∀ w ∈ ws, w.Ran options)
    (hresults : ∀ w ∈ ws, ∃ t ∈ s'.stmts, w.result = .stmt t)
    (hplaces : ∀ w ∈ ws, w.place = { k₁ with nextExpr := w.place.nextExpr })
    (herrors : errors = first ++ ws.flatMap (·.errors)) :
    ∃ ws, Visit.Splits options ⟨k, .stmt s, .stmt s', errors⟩ ws := by
  obtain ⟨n₁, inner, hc, rfl, hfirst⟩ := ends_checkCondition hcond
  let v : ExprVisit := ⟨cond, k.nextExpr, cond', n₁, inner⟩
  refine splits_parts (k := k) [v] ws hs (by rw [hexprs]; rfl) ?_ ?_ hconstructs hran hresults hplaces fun τ hτ => ?_
  · rw [hwhole]
    exact List.forall_mem_singleton.2 hc
  · rw [hexprs']
    exact List.forall_mem_singleton.2 ⟨cond', List.mem_singleton_self _, .refl v⟩
  · rw [herrors, hown, hfirst τ (hτ v (List.mem_singleton_self _)), List.flatMap_singleton]
    exact perm_own_first _ _ _

theorem splits_checkStmt {s s' : Stmt} (h : (checkStmt options s).Ends k s' k' errors) :
    ∃ ws, Visit.Splits options ⟨k, .stmt s, .stmt s', errors⟩ ws := by
  -- a statement with nothing in it
  have hleaf {s : Stmt} (hs : ∀ info decls stmts, s ≠ .compound info decls stmts) (hexprs : s.exprs = [])
      (hstmts : s.stmts = []) (hown : ∀ τ, errors = s.ownErrors options k τ) :
      ∃ ws, Visit.Splits options ⟨k, .stmt s, .stmt s, errors⟩ ws := by
    refine splits_parts [] [] hs hexprs.symm (by simp) (by simp) ?_ (by simp) (by simp) (by simp) ?_
    · rw [hstmts]
      rfl
    · intro τ _
      simp [hown τ]
  cases s with
  | compound info decls stmts => exact splits_compound h
  | ifThen info cond thenBranch =>
    simp only [checkStmt, ends_bind, ends_pure] at h
    obtain ⟨cond', k₁, first, _, rfl, hcond, then', _, more, _, rfl, hthen, rfl, -, rfl⟩ := h
    exact splits_conditional [⟨k₁, .stmt thenBranch, .stmt then', more⟩] hcond
      (by simp) rfl rfl rfl (fun _ => rfl) rfl (List.forall_mem_singleton.2 (ran_stmt hthen))
      (List.forall_mem_singleton.2 ⟨then', by simp [Stmt.stmts], rfl⟩) (List.forall_mem_singleton.2 rfl) (by simp)
  | ifElse info cond thenBranch elseBranch =>
    simp only [checkStmt, ends_bind, ends_pure] at h
    obtain ⟨cond', k₁, first, _, rfl, hcond, then', _, more, _, rfl, hthen, else', _, last, _, rfl, helse, rfl, -,
      rfl⟩ := h
    obtain ⟨n₂, -, rfl⟩ := elaboratesStmtAs options thenBranch hthen
    exact splits_conditional
      [⟨k₁, .stmt thenBranch, .stmt then', more⟩, ⟨{ k₁ with nextExpr := n₂ }, .stmt elseBranch, .stmt else', last⟩]
      hcond (by simp) rfl rfl rfl (fun _ => rfl) rfl
      (List.forall_mem_cons.2 ⟨ran_stmt hthen, List.forall_mem_singleton.2 (ran_stmt helse)⟩)
      (List.forall_mem_cons.2 ⟨⟨then', by simp [Stmt.stmts], rfl⟩,
        List.forall_mem_singleton.2 ⟨else', by simp [Stmt.stmts], rfl⟩⟩)
      (List.forall_mem_cons.2 ⟨rfl, List.forall_mem_singleton.2 rfl⟩) (by simp)
  | whileStmt info cond body =>
    simp only [checkStmt, ends_bind, ends_enterLoop, ends_leaveLoop, ends_pure] at h
    obtain ⟨_, _, _, _, rfl, ⟨rfl, rfl⟩, cond', k₁, first, _, rfl, hcond, body', _, more, _, rfl, hbody, _, _, _, _, rfl,
      ⟨rfl, rfl⟩, rfl, -, rfl⟩ := h
    exact splits_conditional [⟨k₁, .stmt body, .stmt body', more⟩] hcond
      (by simp) rfl rfl rfl (fun _ => rfl) rfl (List.forall_mem_singleton.2 (ran_stmt hbody))
      (List.forall_mem_singleton.2 ⟨body', by simp [Stmt.stmts], rfl⟩) (List.forall_mem_singleton.2 rfl) (by simp)
  | forStmt info init cond update body => exact splits_forStmt h
  | breakStmt info =>
    simp only [checkStmt, ends_bind, ends_pure] at h
    obtain ⟨_, _, own, _, rfl, hloop, rfl, -, rfl⟩ := h
    obtain rfl := ends_requireLoop hloop
    exact hleaf (by simp) rfl rfl fun τ => List.append_nil _
  | continueStmt info =>
    simp only [checkStmt, ends_bind, ends_pure] at h
    obtain ⟨_, _, own, _, rfl, hloop, rfl, -, rfl⟩ := h
    obtain rfl := ends_requireLoop hloop
    exact hleaf (by simp) rfl rfl fun τ => List.append_nil _
  | returnStmt info value =>
    simp only [checkStmt, ends_bind, ends_pure] at h
    obtain ⟨value', _, first, _, rfl, hvalue, rfl, -, rfl⟩ := h
    rw [List.append_nil]
    exact splits_returnStmt hvalue
  | exprStmt info expr =>
    simp only [checkStmt, ends_bind, ends_onExpr, ends_pure] at h
    obtain ⟨expr', _, first, _, rfl, ⟨n', hexpr, rfl⟩, rfl, -, rfl⟩ := h
    refine splits_parts [⟨expr, k.nextExpr, expr', n', first⟩] [] (by simp) rfl
      (List.forall_mem_singleton.2 hexpr) (List.forall_mem_singleton.2 ⟨expr', by simp [Stmt.exprs], .refl _⟩) rfl
      (by simp) (by simp) (by simp) fun τ _ => ?_
    simp [Stmt.ownErrors]
  | emptyStmt info =>
    obtain ⟨rfl, -, rfl⟩ := ends_pure.1 h
    exact hleaf (by simp) rfl rfl fun τ => rfl

end VCLang.Typing
