/-
One more check of an accepted program: it keeps the flat form but for types, and for names that are bound to new copies
of predeclared functions, and reports operators only, of which it overlooks none that has no operator for an operand.
-/
import VCLang.Proofs.Diagnostic.Numbers
import VCLang.Proofs.Elaboration.Frame
import VCLang.Proofs.Recheck.Statement
namespace VCLang

namespace Typing

open Static Check

variable {copies : List (Prototype × Prototype)} {options : Options} {k k₁ k' : Checker} {n' : Nat}

/-! ## Functions -/

theorem again_checkParams {ps : List Param} (h : (checkParams ps).Runs k () k₁) (hrecalled : k.Recalled copies k') :
    (checkParams ps).Runs k' () { k' with env := bindParams k'.env ps } ∧
      k₁.Recalled copies { k' with env := bindParams k'.env ps } := by
  induction ps generalizing k k' with
  | nil =>
    obtain ⟨-, rfl⟩ := runs_pure.1 h
    exact ⟨runs_pure.2 ⟨rfl, rfl⟩, hrecalled⟩
  | cons p ps ih =>
    simp only [checkParams, checkParam, runs_bind, runs_declare, runs_reportOption] at h ⊢
    obtain ⟨_, _, ⟨_, _, ⟨hnew, rfl⟩, hvoid, rfl⟩, hrest⟩ := h
    have hnext : Checker.Recalled copies { k with env := k.env.insert p.ident.spelling p.binding }
        { k' with env := k'.env.insert p.ident.spelling p.binding } :=
      ⟨hrecalled.env.insert _ ⟨.same, .var .same⟩, hrecalled.loopDepth, hrecalled.function⟩
    obtain ⟨hrun, hbehind⟩ := ih hrest hnext
    exact ⟨⟨(), _, ⟨(), _, ⟨hrecalled.fresh hnew, rfl⟩, hvoid, rfl⟩, hrun⟩, hbehind⟩

/-- One more check of a declaration outside all functions. -/
structure TopAgain (copies : List (Prototype × Prototype)) (options : Options) (k : Checker) (d d' : TopDecl)
    (k' : Checker) (errors : List Error) : Prop where
  rechecked : d.Rechecked copies d'
  ends : (checkTopDecl options d).Ends k d' k' errors
  reported : Reported d.entries errors

theorem missingReturn?_of_standard {ret : Ty} {hasReturn : Bool}
    (h : missingReturn? .standard ret hasReturn = none) : missingReturn? options ret hasReturn = none := by
  rw [missingReturn?_iff] at h
  unfold missingReturn?
  cases ret <;> cases hasReturn <;> simp_all [Ty.isVoid]

theorem again_checkFunction {f f' : Function} (h : RunsFunction .standard k f f' n') (hk : k.Outside) (hf : f.Plain)
    (hrecalled : k.Recalled copies k') : ∃ f'' errors, TopAgain copies options k' (.func f') (.func f'')
      { k' with env := k'.env.insert f.ident.spelling f.binding } errors := by
  have hin := in_body hk hf h.params
  obtain ⟨hnew, hparams, ⟨decls', k₁, stmts', hrun, hstmts, rfl⟩, hreturns⟩ := h
  obtain ⟨hdecls, hplain⟩ := hf.parts
  have hinside : Checker.Recalled copies (k.inside f) (k'.inside f) :=
    ⟨(hrecalled.env.insert _ ⟨.same, .func⟩).openScope, hrecalled.loopDepth, rfl⟩
  obtain ⟨hparams', hbody⟩ := again_checkParams (runs_checkParams.2 ⟨hparams, rfl⟩) hinside
  obtain ⟨decls'', env, errors, hagain, hnext, houter⟩ := again_checkVarDecls hrun hin.scope hbody hdecls
  obtain ⟨stmts'', errors', hall, -⟩ := @again_checkStmts _ options _ _ _ _ _ _ _
    (fun s hs => checksAgain (hplain s hs)) hstmts (hin.behind hdecls hrun) hnext
  let body' : Block := ⟨f.body.info, decls'', stmts''⟩
  have hsame : f.body.toStmt.alwaysReturns = body'.toStmt.alwaysReturns := by
    have hchecked : (Block.mk f.body.info decls' stmts').toStmt.Rechecked copies body'.toStmt :=
      .compound hagain.rechecked hall.rechecked
    exact (@alwaysReturns_body _ _ f.body decls' _ _ hstmts).symm.trans hchecked.alwaysReturns.symm
  let f' : Function := { f with body := ⟨f.body.info, decls', stmts'⟩, hasReturn := f.body.toStmt.alwaysReturns }
  refine ⟨{ f' with body := body' }, errors ++ errors', .func hagain.rechecked hall.rechecked, ?_, ?_⟩
  · refine ends_map.2 ⟨_, ?_, rfl⟩
    have hfree : redeclaration k'.env f.ident = [] := by
      rw [redeclaration, hrecalled.fresh hnew]
      rfl
    have hdeclared : (declare f.ident f.binding).Ends k' () { k' with env := k'.env.insert f.ident.spelling f.binding }
        [] := ends_declare.2 ⟨rfl, hfree.symm⟩
    refine hdeclared.quiet_bind (Ends.quiet_bind (ends_openScope (u := ()).2 ⟨rfl, rfl⟩) ?_)
    refine Ends.quiet_bind (ends_get.2 ⟨rfl, rfl, rfl⟩) (Ends.quiet_bind (ends_modify (u := ()).2 ⟨rfl, rfl⟩) ?_)
    refine Ends.quiet_bind hparams' ((hagain.ends.bind hall.ends.then_pure).bind_quiet ?_)
    rw [hsame] at hreturns
    have hclosed : Scopes.closeScope env = k'.env.insert f.ident.spelling f.binding :=
      closeScope_of_outer (houter.trans (bindParams_outer _ _))
    have hquiet : missingReturn? options f.ty body'.toStmt.alwaysReturns = none := missingReturn?_of_standard hreturns
    refine Ends.quiet_bind (ends_reportOption (u := ()).2 ⟨rfl, by rw [hquiet]; rfl⟩) ?_
    refine Ends.quiet_bind (ends_modify (u := ()).2 ⟨rfl, rfl⟩) ?_
    refine Ends.quiet_bind (ends_closeScope (u := ()).2 ⟨rfl, rfl⟩) (ends_pure.2 ⟨?_, ?_, rfl⟩)
    · exact congrArg (fun b => ({ f' with body := body', hasReturn := b } : Function)) hsame
    · exact congrArg (fun env => ({ k' with env } : Checker)) hclosed.symm
  · have hparams : Reported (f.params.map (Param.entry (.decl f.id))) [] := by
      refine ⟨by simp, fun id n hn => ?_⟩
      obtain ⟨p, -, hp⟩ := List.mem_map.1 hn
      cases hp
    have hbody : Reported (f'.body.toStmt.entries (.decl f.id)) (errors ++ errors') := by
      rw [Block.toStmt, Stmt.entries, Stmt.entriesAll_eq]
      exact .stmt ((hagain.reported _).append (hall.reported _))
    exact (hparams.append hbody).behind fun id n hn => by cases hn

theorem again_checkTopDecl {d d' : TopDecl} (h : RunsTop .standard k d d' k₁) (hk : k.Outside) (hd : d.Plain)
    (hrecalled : k.Recalled copies k') :
    ∃ d'' k₂ errors, TopAgain copies options k' d' d'' k₂ errors ∧ k₁.Recalled copies k₂ := by
  cases h with
  | func hrun =>
    cases hd with
    | func hf =>
      obtain ⟨f'', errors, hagain⟩ := @again_checkFunction _ options _ _ _ _ _ hrun hk hf hrecalled
      exact ⟨_, _, errors, hagain, hrecalled.env.insert _ ⟨.same, .func⟩, hrecalled.loopDepth, hrecalled.function⟩
  | var hrun =>
    cases hd with
    | var hd =>
      obtain ⟨d'', errors, hagain, hnext⟩ := again_checkVarDecl hrun hk.scope hrecalled hd
      exact ⟨_, _, errors, ⟨.var hagain.rechecked, ends_map.2 ⟨d'', hagain.ends, rfl⟩, hagain.reported _⟩, hnext⟩

/-! ## Programs -/

theorem again_checkTopDecls {ds ds' : List TopDecl} (h : RunsTops .standard k ds ds' k₁) (hk : k.Outside)
    (hds : ∀ d ∈ ds, d.Plain) (hrecalled : k.Recalled copies k') : ∃ ds'' k₂ errors,
      List.Forall₂ (TopDecl.Rechecked copies) ds' ds'' ∧ (checkTopDecls options ds').Ends k' ds'' k₂ errors ∧
      Reported (ds'.flatMap TopDecl.entries) errors ∧ k₁.Recalled copies k₂ := by
  induction h generalizing k' with
  | nil => exact ⟨[], k', [], .nil, ends_pure.2 ⟨rfl, rfl, rfl⟩, .nil, hrecalled⟩
  | cons hd _ ih =>
    have hplain := hds _ List.mem_cons_self
    obtain ⟨d'', k₂, errors, hagain, hnext⟩ := @again_checkTopDecl _ options _ _ _ _ _ hd hk hplain hrecalled
    obtain ⟨ds'', k₃, errors', hrechecked, hends, hreported, hbehind⟩ :=
      ih (outside_next hk hplain hd) (fun d hd => hds d (List.mem_cons_of_mem _ hd)) hnext
    exact ⟨d'' :: ds'', k₃, errors ++ errors', .cons hagain.rechecked hrechecked, hagain.ends.bind hends.then_pure,
      hagain.reported.append hreported, hbehind⟩

/-- Predeclared functions that are numbered anew are copies. -/
theorem recalled_bindAll {env env' : Env} (h : Env.Recalled copies env env') (first first' : Nat)
    (es : List Library.Entry)
    (hcopies : ∀ c ∈ (Library.number first es).zip (Library.number first' es), c ∈ copies) :
    Env.Recalled copies (Library.bindAll env (Library.number first es))
      (Library.bindAll env' (Library.number first' es)) := by
  induction es generalizing first first' env env' with
  | nil => exact h
  | cons e es ih =>
    refine ih (h.insert _ ⟨.copy (hcopies _ List.mem_cons_self), ?_⟩) _ _ fun c hc =>
      hcopies c (List.mem_cons_of_mem _ hc)
    rw [Prototype.binding, Prototype.binding, types_params, types_params]
    exact .func

/-- `main` is found once more. -/
theorem mainFault?_again {env env' : Env} (h : Env.Recalled copies env env')
    (hmain : ∃ params, env.scope.retrieve "main" = some (.func .int params)) : mainFault? env' = none := by
  obtain ⟨params, hmain⟩ := hmain
  obtain ⟨d, hd⟩ := Env.retrieve_scope.1 hmain
  obtain ⟨⟨d', s⟩, hd', hb⟩ := h.retrieve_some hd
  refine mainFault?_iff.2 ⟨params, Env.retrieve_scope.2 ⟨d', ?_⟩⟩
  have hsignature := hb.signature
  cases hsignature
  exact hd'

/-- An accepted program is checked once more. -/
theorem again_check {p q : Program} (hplain : p.Plain) (hq : check .standard p = (q, [])) (options : Options) :
    ∃ ds errors, check options q = (⟨ds, q.span, q.predeclared ++ Library.prototypesFor q⟩, errors) ∧
      List.Forall₂ (TopDecl.Rechecked ((Library.prototypesFor p).zip (Library.prototypesFor q))) q.decls ds ∧
      Reported (q.decls.flatMap TopDecl.entries) errors := by
  have hclean : (check .standard p).2 = [] := by rw [hq]
  obtain ⟨ds', k', hrun, hmain, hprogram⟩ := check_accepted hclean
  rw [hq] at hprogram
  obtain rfl : q = _ := hprogram
  let q : Program := ⟨ds', p.span, p.predeclared ++ Library.prototypesFor p⟩
  have hempty : Env.Recalled ((Library.prototypesFor p).zip (Library.prototypesFor q)) .empty .empty := ⟨.nil, .nil⟩
  have hinitial : Checker.Recalled _ (.initial p) (.initial q) :=
    ⟨recalled_bindAll hempty p.declCount q.declCount Library.entries fun _ => id, rfl, rfl⟩
  obtain ⟨ds'', k'', errors, hrechecked, hends, hreported, hbehind⟩ :=
    @again_checkTopDecls _ options _ _ _ _ _ hrun (outside_initial p) hplain.decls hinitial
  have hchecked : (checkDecls options q).Ends (.initial q) ds'' k'' errors := by
    refine hends.bind_quiet (Ends.quiet_bind (ends_get.2 ⟨rfl, rfl, rfl⟩) ?_)
    rw [mainFault?_again hbehind.env hmain]
    exact ends_pure.2 ⟨rfl, rfl, rfl⟩
  refine ⟨ds'', errors, ?_, hrechecked, hreported⟩
  rw [check, hchecked]
  rfl

end Typing

/-! ## Flat forms -/

section Arenas

variable {copies : List (Prototype × Prototype)}

/-- One flat form is another behind one more check: nothing is added but copies of predeclared functions, and nothing is
changed but types, and what names are bound to. -/
structure Arena.Rechecked (copies : List (Prototype × Prototype)) (a b : Arena) : Prop where
  exprs : ∀ id n, a.expr? id = some n → ∃ n', b.expr? id = some n' ∧ n.Rechecked copies n'
  no_exprs : b.exprs.size = a.exprs.size
  stmts : b.stmts = a.stmts
  decls : ∀ id n, a.decl? id = some n → b.decl? id = some n
  library : ∀ id n, a.decls.size ≤ id.index → (b.decl? id = some n ↔
    .decl id n ∈ (Library.number a.decls.size Library.entries).flatMap Prototype.entries)
  program : b.program = a.program
  span : b.span = a.span

theorem forall₂_mem_left {α β : Type} {R : α → β → Prop} {xs : List α} {ys : List β} (h : List.Forall₂ R xs ys) :
    ∀ x ∈ xs, ∃ y ∈ ys, R x y := by
  induction h with
  | nil => simp
  | @cons x y xs ys hxy _ ih =>
    intro z hz
    rcases List.mem_cons.1 hz with rfl | hz
    · exact ⟨y, List.mem_cons_self, hxy⟩
    · obtain ⟨w, hw, hR⟩ := ih z hz
      exact ⟨w, List.mem_cons_of_mem _ hw, hR⟩

/-- Nodes behind one more check have the same numbers, and the statements are the same. -/
theorem ids_rechecked {es es' : List Entry} (h : List.Forall₂ (Entry.Rechecked copies) es es') :
    exprIds es' = exprIds es ∧ es'.filterMap Entry.stmt? = es.filterMap Entry.stmt? ∧
      es'.filterMap Entry.decl? = es.filterMap Entry.decl? := by
  induction h with
  | nil => exact ⟨rfl, rfl, rfl⟩
  | @cons x y xs ys hxy _ ih =>
    obtain ⟨hexprs, hstmts, hdecls⟩ := ih
    have hcons (x : Entry) (xs : List Entry) : exprIds (x :: xs) = exprIds [x] ++ exprIds xs := exprIds_append [x] xs
    rw [hcons, hcons x, hexprs, List.filterMap_cons, List.filterMap_cons, List.filterMap_cons, List.filterMap_cons,
      hstmts, hdecls]
    cases hxy <;> exact ⟨rfl, rfl, rfl⟩

/-- Predeclared functions have no expressions and no statements. -/
theorem rechecked_prototypes (fs : List Prototype) :
    List.Forall₂ (Entry.Rechecked copies) (fs.flatMap Prototype.entries) (fs.flatMap Prototype.entries) := by
  refine List.forall₂_same.2 fun x hx => ?_
  obtain ⟨f, -, hx⟩ := List.mem_flatMap.1 hx
  rw [Prototype.entries, List.mem_append] at hx
  rcases hx with hx | hx
  · obtain ⟨p, -, rfl⟩ := List.mem_map.1 hx
    exact .decl
  · rw [List.mem_singleton] at hx
    subst hx
    exact .decl

/-- The flat form of a program whose nodes are those of another behind one more check, with predeclared functions. -/
theorem Arena.Rechecked.of_entries {q r : Program} (hq : q.Complete) (hr : r.Complete) {es : List Entry}
    (hentries : r.entries = es ++ (Library.prototypesFor q).flatMap Prototype.entries)
    (hes : List.Forall₂ (Entry.Rechecked copies) q.entries es) (hids : r.decls.map TopDecl.id = q.decls.map TopDecl.id)
    (hspan : r.span = q.span) : Arena.Rechecked copies q.arena r.arena := by
  obtain ⟨hexprs, hstmts, hdecls⟩ := ids_rechecked hes
  obtain ⟨hnoExpr, hnoStmt⟩ := ids_prototypes (Library.prototypesFor q)
  have hsize : q.arena.decls.size = q.declCount := size_place _
  have hheld (x : Entry) : r.arena.Holds x ↔ x ∈ es ∨ x ∈ (Library.prototypesFor q).flatMap Prototype.entries := by
    rw [hr.holds_iff, hentries, List.mem_append]
  -- a declaration is where it was
  have hdecl (id : DeclId) (n : DeclNode) : Entry.decl id n ∈ es ↔ q.arena.decl? id = some n := by
    obtain ⟨i⟩ := id
    have hmem (es : List Entry) : (i, n) ∈ es.filterMap Entry.decl? ↔ Entry.decl ⟨i⟩ n ∈ es := by
      refine mem_filterMap_iff ?_
      rintro (_ | _ | ⟨⟨j⟩, m⟩) <;> simp [Entry.decl?]
    rw [← hmem, hdecls, hmem]
    exact (hq.holds_iff (.decl ⟨i⟩ n)).symm
  constructor
  · intro id n hn
    obtain ⟨x, hx, hrechecked⟩ := forall₂_mem_left hes _ ((hq.holds_iff (.expr id n)).1 hn)
    cases hrechecked with
    | @expr _ _ n' hn' => exact ⟨n', (hheld (.expr id n')).2 (.inl hx), hn'⟩
  · have hlength (p : Program) : p.arena.exprs.size = (VCLang.exprIds p.entries).length := by
      rw [VCLang.exprIds, List.length_map]
      exact size_place _
    rw [hlength, hlength, hentries, exprIds_append, hexprs, hnoExpr, List.append_nil]
  · have hnone : ((Library.prototypesFor q).flatMap Prototype.entries).filterMap Entry.stmt? = [] :=
      List.map_eq_nil_iff.1 hnoStmt
    show place (r.entries.filterMap Entry.stmt?) = place (q.entries.filterMap Entry.stmt?)
    rw [hentries, List.filterMap_append, hstmts, hnone, List.append_nil]
  · exact fun id n hn => (hheld (.decl id n)).2 (.inl ((hdecl id n).2 hn))
  · intro id n hle
    rw [hsize]
    constructor
    · intro hn
      rcases (hheld (.decl id n)).1 hn with hmem | hmem
      · obtain ⟨hlt, -⟩ := Array.getElem?_eq_some_iff.1 ((hdecl id n).1 hmem)
        exact absurd hlt (Nat.not_lt.2 hle)
      · exact hmem
    · exact fun hmem => (hheld (.decl id n)).2 (.inr hmem)
  · exact hids
  · exact hspan

end Arenas

/-! ## Accepted programs -/

/-- The message of an operator is that of number 9 or 10. -/
theorem ExprNode.Blames.code? {n : ExprNode} {x : Error} (h : n.Blames x) :
    x.diagnostic.code? = some 9 ∨ x.diagnostic.code? = some 10 := by
  have hnumber {f : Fault} (words : String) (hf : f.template.toList.head? ≠ some '%') :
      catalogNumber? (fill f.template words) = f.number? := number_message words hf
  cases h with
  | unary => exact .inr (hnumber _ (by rw [Fault.template, String.toList_ofList]; decide))
  | binary => exact .inl (hnumber _ (by rw [Fault.template, String.toList_ofList]; decide))

/-- One more check, with any options, of a program that the check reported nothing of: it adds no nodes but the
predeclared functions once more and changes nothing but types and what names are bound to; every type is the same but
for the size of an array, or `error`, which the type of every operator is; all that is reported are tagged operators,
and something is if there is one. -/
theorem check_rechecked {source : String} {p q : Program} (h : (parse source).result = .ok p)
    (hq : check .standard p = (q, [])) (options : Typing.Options) :
    Arena.Rechecked ((Library.prototypesFor p).zip (Library.prototypesFor q)) q.arena (check options q).1.arena ∧
    (∀ x ∈ (check options q).2, (x.diagnostic.code? = some 9 ∨ x.diagnostic.code? = some 10) ∧
      ∃ id n, q.arena.expr? id = some n ∧ n.Blames x) ∧
    ((check options q).2 ≠ [] ↔ ∃ id n, q.arena.expr? id = some n ∧ n.kind.isOperator = true) := by
  obtain ⟨hplain, hnumbered⟩ := parse_built h
  have hcomplete : q.Complete := by
    have hchecked := complete_check .standard hnumbered.complete
    rwa [hq] at hchecked
  obtain ⟨ds, errors, hr, hrechecked, hreported⟩ := Typing.again_check hplain hq options
  have hcomplete' := complete_check options hcomplete
  rw [hr] at hcomplete' ⊢
  -- what is reported is of the declarations, and predeclared functions have no expressions
  have hexpr (id : ExprId) (n : ExprNode) :
      q.arena.expr? id = some n ↔ .expr id n ∈ q.decls.flatMap TopDecl.entries := by
    have hheld := hcomplete.holds_iff (.expr id n)
    rw [Program.entries, List.mem_append] at hheld
    exact hheld.trans (or_iff_left not_mem_prototypes)
  refine ⟨?_, fun x hx => ?_, fun hne => ?_, ?_⟩
  · refine .of_entries hcomplete hcomplete' (Program.entries_checked q ds) ?_ ?_ rfl
    · exact List.rel_append (forall₂_flatMap hrechecked fun _ _ _ hd => hd.entries) (rechecked_prototypes _)
    · exact map_eq_of_forall₂ hrechecked fun d d' hd => by cases hd <;> first | rfl | exact VarDecl.Rechecked.id ‹_›
  · obtain ⟨id, n, hn, hblames⟩ := hreported.blamed x hx
    exact ⟨hblames.code?, id, n, (hexpr id n).2 hn, hblames⟩
  · obtain ⟨x, hx⟩ := List.exists_mem_of_ne_nil _ hne
    obtain ⟨id, n, hn, hblames⟩ := hreported.blamed x hx
    exact ⟨id, n, (hexpr id n).2 hn, hblames.isOperator⟩
  · rintro ⟨id, n, hn, hop⟩
    exact hreported.some id n ((hexpr id n).1 hn) hop

/-- Two conversions, an omitted condition, a counted size and a call of a predeclared function. -/
theorem check_rechecked_sum : ∃ source p q, (parse source).result = .ok p ∧ check .standard p = (q, []) ∧
    Arena.Rechecked ((Library.prototypesFor p).zip (Library.prototypesFor q)) q.arena (check .quiet q).1.arena ∧
    (∀ x ∈ (check .quiet q).2, (x.diagnostic.code? = some 9 ∨ x.diagnostic.code? = some 10) ∧
      ∃ id n, q.arena.expr? id = some n ∧ n.Blames x) ∧
    ((check .quiet q).2 ≠ [] ↔ ∃ id n, q.arena.expr? id = some n ∧ n.kind.isOperator = true) := by
  let source := "int main(){float a[] = {1, 2 + 0.5}; for(;;) putInt(-1); return 0;}"
  have hcompiled : (compile .standard source).program.isSome = true := by decide +kernel
  obtain ⟨q, hq⟩ := Option.isSome_iff_exists.1 hcompiled
  obtain ⟨p, hp, -, hclean, rfl⟩ := compile_program_iff.1 hq
  have hcheck : check .standard p = ((check .standard p).1, []) := Prod.ext rfl hclean
  exact ⟨source, p, _, hp, hcheck, check_rechecked hp hcheck .quiet⟩

end VCLang
