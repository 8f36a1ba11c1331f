/-
One step of the check of any construct. It checks each part once, in a place that follows from its own, and what it
reports beside that is its own.
-/
import VCLang.Proofs.Verdict.StatementStep
namespace VCLang.Typing

open Check

variable {options : Options} {k k' : Checker} {errors : List Error}

/-! ## Functions -/

/-- Parameters are declared one after another. -/
theorem ends_checkParams {ps : List Param} {u : Unit} (h : (checkParams ps).Ends k u k' errors) :
    errors = paramErrors k.env ps ∧ k' = { k with env := k.env.bindAll (ps.map Param.bound) } := by
  induction ps generalizing k errors with
  | nil =>
    obtain ⟨-, rfl, rfl⟩ := ends_pure.1 h
    exact ⟨rfl, rfl⟩
  | cons p ps ih =>
    simp only [checkParams, checkParam, ends_bind, ends_declare, ends_reportOption] at h
    obtain ⟨_, _, _, more, rfl, ⟨_, _, _, own, rfl, ⟨rfl, rfl⟩, rfl, rfl⟩, hrest⟩ := h
    obtain ⟨rfl, rfl⟩ := ih hrest
    exact ⟨rfl, rfl⟩

/-- The nodes of a function hold those of its body. -/
theorem held_function {f : Function} {b : Arena} (hb : b.Has f.entries) :
    (∀ d ∈ f.body.decls, b.Has (d.entries (.stmt f.body.id))) ∧
      ∀ s ∈ f.body.stmts, b.Has (s.entries (.stmt f.body.id)) := by
  rw [Function.entries, Arena.has_append, Arena.has_append] at hb
  obtain ⟨hvars, -, hstmts⟩ := held_stmt hb.1.2
  exact ⟨hvars, hstmts⟩

/-- The check of a function, whose parameters and variables share one scope. -/
theorem splits_checkFunction {f f' : Function} (h : (checkFunction options f).Ends k f' k' errors) :
    ∃ ws, Visit.Splits options ⟨k, .func f, .func f', errors⟩ ws := by
  unfold checkFunction checkBody at h
  simp only [ends_bind, ends_declare, ends_openScope, ends_get, ends_modify, ends_reportOption, ends_closeScope,
    ends_pure] at h
  obtain ⟨_, _, _, _, rfl, ⟨rfl, rfl⟩, _, _, _, _, rfl, ⟨rfl, rfl⟩, _, _, _, _, rfl, ⟨rfl, rfl, rfl⟩, h⟩ := h
  obtain ⟨_, _, _, _, rfl, ⟨rfl, rfl⟩, _, _, first, _, rfl, hparams, h⟩ := h
  obtain ⟨rfl, rfl⟩ := ends_checkParams hparams
  obtain ⟨_, _, _, _, rfl, ⟨decls', k₁, second, _, rfl, hdecls, stmts', _, third, _, rfl, hstmts, rfl, rfl, rfl⟩,
    _, _, own, _, rfl, ⟨rfl, rfl⟩, _, _, _, _, rfl, ⟨rfl, rfl⟩, _, _, _, _, rfl, ⟨rfl, rfl⟩, rfl, -, rfl⟩ := h
  obtain ⟨n', helaborates, -⟩ := elaborates_checkStmts hstmts
  have hreturn : (Block.toStmt ⟨f.body.info, decls', stmts'⟩).alwaysReturns = f.body.toStmt.alwaysReturns :=
    helaborates.alwaysReturns _ _ _
  refine splits_block (f.params.map Param.bound)
    (redeclaration k.env f.ident ++ paramErrors (f.inner k.env) f.params ++
      reported (missingReturn? options f.ty f.body.toStmt.alwaysReturns) f.span)
    hdecls hstmts (by simp) rfl (fun b parent hb => ⟨_, held_function hb⟩) rfl rfl rfl rfl (fun τ => ?_) ?_
  · refine List.perm_iff_count.2 fun x => ?_
    simp only [List.count_append, Construct.ownErrors, Function.ownErrors]
    omega
  · have hown : (missingReturn? options f.ty (Block.toStmt ⟨f.body.info, decls', stmts'⟩).alwaysReturns).toList.map
        (⟨·, f.span⟩) = reported (missingReturn? options f.ty f.body.toStmt.alwaysReturns) f.span := by
      rw [hreturn]
      rfl
    refine List.perm_iff_count.2 fun x => ?_
    simp only [List.count_append, List.nil_append, List.append_nil, hown, Function.inner]
    omega

/-! ## One step -/

/-- The check of any construct splits into the checks of its parts and what it reports itself. -/
theorem Visit.Ran.splits {options : Options} {v : Visit} (h : v.Ran options) : ∃ ws, v.Splits options ws := by
  obtain ⟨after, h⟩ := h
  obtain ⟨k, c, c', errors⟩ := v
  cases c with
  | expr whole e =>
    obtain ⟨e', he, hc'⟩ := ends_map.1 h
    obtain ⟨n', he, -⟩ := ends_onExpr.1 he
    obtain rfl : c' = .expr whole e' := hc'
    obtain ⟨visits, hsplit⟩ := splits_checkExpr he
    refine ⟨visits.map (ExprVisit.at k false), ?_, ?_, ?_, ?_, fun τ hτ => ?_⟩
    · rw [Construct.parts, ← hsplit.sources, List.map_map, List.map_map]
      rfl
    · intro w hw
      obtain ⟨v, hv, rfl⟩ := List.mem_map.1 hw
      exact (hsplit.ran v hv).at
    · intro w hw
      obtain ⟨v, hv, rfl⟩ := List.mem_map.1 hw
      refine ⟨fun b parent hb => ?_, ⟨[], by simp, rfl⟩, rfl, rfl⟩
      obtain ⟨d, hd, hfill⟩ := exists_fills hsplit.fills v hv
      have hb' : b.Has (e'.entries parent) := hb
      rw [Expr.entries_eq, Arena.has_append] at hb'
      exact hfill.held (hb'.1.of_mem hd)
    · rintro τ hτ _ _ _ _ ⟨⟩ ⟨⟩
      rw [Expr.type, hsplit.typed τ (typedBy_of_at hτ), Option.getD_some]
    · rw [flatMap_at]
      exact hsplit.errors τ (typedBy_of_at hτ)
  | var d =>
    obtain ⟨d', hd, hc'⟩ := ends_map.1 h
    obtain rfl : c' = .var d' := hc'
    obtain ⟨visits, hsplit⟩ := splits_checkVarDecl hd
    let k' : Checker := { k with env := k.env.insert d.ident.spelling d.binding }
    refine ⟨visits.map (ExprVisit.at k' false), ?_, ?_, ?_, ?_, fun τ hτ => ?_⟩
    · rw [Construct.parts, ← hsplit.sources, List.map_map, List.map_map]
      rfl
    · intro w hw
      obtain ⟨v, hv, rfl⟩ := List.mem_map.1 hw
      exact ExprVisit.Ran.at (k := k') (hsplit.ran v hv)
    · intro w hw
      obtain ⟨v, hv, rfl⟩ := List.mem_map.1 hw
      exact ⟨fun b parent hb => hsplit.held b parent hb v hv, ⟨[], by simp, rfl⟩, rfl, rfl⟩
    · rintro _ _ _ _ _ _ ⟨⟩
    · rw [flatMap_at]
      exact hsplit.errors τ (typedBy_of_at hτ)
  | stmt s =>
    obtain ⟨s', hs, hc'⟩ := ends_map.1 h
    obtain rfl : c' = .stmt s' := hc'
    exact splits_checkStmt hs
  | func f =>
    obtain ⟨f', hf, hc'⟩ := ends_map.1 h
    obtain rfl : c' = .func f' := hc'
    exact splits_checkFunction hf

end VCLang.Typing
