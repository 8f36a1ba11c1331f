/-
The check of a program, construct by construct: all that is in the program is visited once, each construct at its
place, and the errors are those of the constructs and perhaps one about `main`.
-/
import VCLang.Proofs.Elaboration.Frame
import VCLang.Proofs.Tree.Subtrees
import VCLang.Proofs.Verdict.Numbers
import VCLang.Proofs.Verdict.Place
namespace VCLang

open Typing

variable {options : Options} {p : Program} {vs all : List Visit}

/-- A declaration outside all functions as a construct. -/
def TopDecl.construct : TopDecl → Construct
  | func f => .func f
  | var d => .var d

/-- The name that a declaration outside all functions declares. -/
def TopDecl.bound : TopDecl → String × Binding
  | func f => (f.ident.spelling, f.binding)
  | var d => d.bound

theorem TopDecl.entries_construct (d : TopDecl) : d.construct.entries .program = d.entries := by
  cases d <;> rfl

theorem TopDecl.declared {a : Arena} {d : TopDecl} (ha : a.Has d.entries) :
    a.declared? d.bound.2.decl = some (d.bound.1, d.bound.2.signature) := by
  cases d with
  | func f => exact Arena.declared_function ha
  | var d => exact Arena.declared_var ha

/-- A declaration outside all functions is part of the program. -/
theorem TopDecl.parentOf {a : Arena} {d : TopDecl} (ha : a.Has d.entries) :
    a.parentOf d.construct.node = some .program := by
  cases d with
  | func f =>
    rw [entries, Function.entries, Arena.has_append] at ha
    rw [construct, Construct.node, Arena.parentOf, ha.2.decl, Option.bind_some]
  | var d => exact Construct.parentOf_node (c := .var d) ha (by simp)

namespace Typing

open Check

variable {k k' : Checker} {errors : List Error}

/-- The checks of declarations one after another: each is in the scopes that those before it have left. -/
theorem visits_checkTopDecls {ds ds' : List TopDecl} (h : (checkTopDecls options ds).Ends k ds' k' errors) :
    ∃ vs : List Visit, vs.map (·.construct) = ds.map TopDecl.construct ∧ (∀ v ∈ vs, v.Ran options) ∧
      (∀ v ∈ vs, ∃ d' ∈ ds', v.result = d'.construct) ∧
      (∀ v ∈ vs, ∃ bs ⊆ ds'.map TopDecl.bound, v.place.env = k.env.bindAll bs ∧ v.place.loopDepth = k.loopDepth) ∧
      errors = vs.flatMap (·.errors) := by
  induction ds generalizing k ds' errors with
  | nil =>
    obtain ⟨rfl, rfl, rfl⟩ := ends_pure.1 h
    exact ⟨[], rfl, by simp, by simp, by simp, rfl⟩
  | cons d ds ih =>
    simp only [checkTopDecls, ends_bind, ends_pure] at h
    obtain ⟨d', k₁, first, _, rfl, hd, ds', _, more, _, rfl, hds, rfl, rfl, rfl⟩ := h
    let v : Visit := ⟨k, d.construct, d'.construct, first⟩
    -- the check of the first one leaves its name in scope
    obtain ⟨hran, hafter⟩ : v.Ran options ∧
        k₁ = { k with env := k.env.insert d'.bound.1 d'.bound.2, nextExpr := k₁.nextExpr } := by
      cases d with
      | func f =>
        obtain ⟨f', hf, rfl⟩ := ends_map.1 hd
        obtain ⟨n', helaborates, rfl⟩ := elaborates_checkFunction hf
        cases helaborates
        exact ⟨⟨_, ends_map.2 ⟨_, hf, rfl⟩⟩, rfl⟩
      | var d =>
        obtain ⟨d', hvar, rfl⟩ := ends_map.1 hd
        obtain ⟨n', own, hinit, -, rfl⟩ := elaborates_checkVarDecl hvar
        refine ⟨⟨_, ends_map.2 ⟨_, hvar, rfl⟩⟩, ?_⟩
        rw [TopDecl.bound, VarDecl.bound, hinit.ident]
    rw [hafter] at hds
    obtain ⟨vs, hconstructs, hran', hresults, hplaces, rfl⟩ := ih hds
    refine ⟨v :: vs, by simp [v, hconstructs], List.forall_mem_cons.2 ⟨hran, hran'⟩,
      List.forall_mem_cons.2 ⟨⟨d', by simp, rfl⟩, ?_⟩, List.forall_mem_cons.2 ⟨⟨[], by simp, rfl, rfl⟩, ?_⟩, ?_⟩
    · intro w hw
      obtain ⟨c, hc, hresult⟩ := hresults w hw
      exact ⟨c, List.mem_cons_of_mem _ hc, hresult⟩
    · intro w hw
      obtain ⟨bs, hbs, henv, hdepth⟩ := hplaces w hw
      refine ⟨d'.bound :: bs, ?_, henv, hdepth⟩
      rw [List.map_cons]
      exact List.cons_subset_cons _ hbs
    · rw [List.append_nil, List.flatMap_cons]

/-- How a program is checked: the declarations, all that is visited in them, and the errors. -/
structure Visited (options : Options) (p : Program) (vs all : List Visit) : Prop where
  constructs : vs.map (·.construct) = p.decls.map TopDecl.construct
  walk : Walk options vs all
  ran : ∀ v ∈ all, v.Ran options
  fits : ∀ v ∈ all, v.Fits p.arena (check options p).1.arena
  /-- Outside all functions the names in scope are those of the library and of the declarations. -/
  places : ∀ v ∈ vs, ∃ bs ⊆ (check options p).1.decls.map TopDecl.bound,
    v.place.env = (Checker.initial p).env.bindAll bs
  errors : ∃ env, (check options p).2 = vs.flatMap (·.errors) ++ reported (mainFault? env) p.span

theorem bindAll_prototypes (env : Env) (fs : List Prototype) :
    Library.bindAll env fs = env.bindAll (fs.map fun f => (f.ident.spelling, f.binding)) := by
  rw [Library.bindAll, Scopes.bindAll, List.foldl_map]

/-- The names of the library functions are in scope in a whole program. -/
theorem mem_library {fs : List Prototype} {name : String} {x : Binding}
    (h : (Library.bindAll .empty fs).retrieve name = some x) : ∃ f ∈ fs, (name, x) = (f.ident.spelling, f.binding) := by
  rw [bindAll_prototypes] at h
  rcases Visit.mem_bindAll h with h | h
  · obtain ⟨f, hf, heq⟩ := List.mem_map.1 h
    exact ⟨f, hf, heq.symm⟩
  · cases h

/-- The declarations outside all functions are checked at the place where they stand. -/
theorem fits_top {a b : Arena} {p : Program} {ds' : List TopDecl} {d : TopDecl} {v : Visit}
    {bs : List (String × Binding)} (ha : a.Has d.entries) (hb : b.Has (ds'.flatMap TopDecl.entries))
    (hlibrary : b.Has ((Library.prototypesFor p).flatMap Prototype.entries)) (hd : v.construct = d.construct)
    (hd' : ∃ d' ∈ ds', v.result = d'.construct) (hbs : bs ⊆ ds'.map TopDecl.bound)
    (henv : v.place.env = (Checker.initial p).env.bindAll bs) (hdepth : v.place.loopDepth = 0) : v.Fits a b := by
  obtain ⟨d', hmem, hd'⟩ := hd'
  have hnot (y : NodeId) (hy : y ≠ .program) : ¬ a.Under v.construct.node y := by
    rw [hd, Arena.under_iff (TopDecl.parentOf ha), not_or]
    exact ⟨hy, Arena.not_under rfl⟩
  have hknown (name : String) (x : Binding) (hx : v.place.env.retrieve name = some x) :
      b.declared? x.decl = some (name, x.signature) := by
    rw [henv] at hx
    rcases Visit.mem_bindAll hx with hx | hx
    · obtain ⟨c, hc, heq⟩ := List.mem_map.1 (hbs hx)
      have hdeclared := TopDecl.declared (hb.of_mem hc)
      rwa [heq] at hdeclared
    · obtain ⟨f, hf, heq⟩ := mem_library hx
      cases heq
      exact Arena.declared_prototype (hlibrary.of_mem hf)
  constructor
  · exact ⟨.program, by rwa [hd, TopDecl.entries_construct]⟩
  · refine ⟨.program, ?_⟩
    rw [hd', TopDecl.entries_construct]
    exact hb.of_mem hmem
  · exact fun name x _ h => absurd h (hnot _ (by simp))
  · exact fun name x hx _ => hknown name x hx
  · exact fun name x hx _ => hknown name x hx
  · exact fun _ d h => absurd h (hnot _ (by simp))
  · refine iff_of_true hdepth ?_
    rintro ⟨y, hy, id, n, rfl, -⟩
    exact hnot _ (by simp) hy

/-- All of a program is visited. -/
theorem visited_check (options : Options) {p : Program} (hplain : p.Plain) (hp : p.Complete) :
    ∃ vs all, Visited options p vs all := by
  have hframe := frame_check options hplain hp
  have hall := (complete_check options hp).has
  have hsource := hp.has
  rw [hplain.entries_eq] at hsource
  have hcheck := check_eq options p
  have hds := ends (checkTopDecls options p.decls) (.initial p)
  generalize checkTopDecls options p.decls (.initial p) = o at hcheck hds
  obtain ⟨ds', last, errors⟩ := o
  have hresult : (check options p).1.entries =
      ds'.flatMap TopDecl.entries ++ (Library.prototypesFor p).flatMap Prototype.entries := by
    rw [hcheck]
    exact hplain.entries_checked ds'
  rw [hresult, Arena.has_append] at hall
  obtain ⟨vs, hconstructs, hran, hresults, hplaces, rfl⟩ := visits_checkTopDecls hds
  obtain ⟨all, hwalk⟩ := Walk.exists_of_ran hran
  have hvisits : ∀ v ∈ all, v.Ran options ∧ v.Fits p.arena (check options p).1.arena := by
    refine hwalk.forall_mem (fun v hv => ⟨hran v hv, ?_⟩)
      fun v w hv hw hpart hmem => ⟨hw, hv.2.part hframe hv.1 hpart hmem⟩
    have hmem : v.construct ∈ p.decls.map TopDecl.construct := hconstructs ▸ List.mem_map_of_mem hv
    obtain ⟨d, hd, hdv⟩ := List.mem_map.1 hmem
    obtain ⟨bs, hbs, henv, hdepth⟩ := hplaces v hv
    exact fits_top (hsource.of_mem hd) hall.1 hall.2 hdv.symm (hresults v hv) hbs henv hdepth
  refine ⟨vs, all, hconstructs, hwalk, fun v hv => (hvisits v hv).1, fun v hv => (hvisits v hv).2, fun v hv => ?_,
    last.env, ?_⟩
  · obtain ⟨bs, hbs, henv, -⟩ := hplaces v hv
    rw [hcheck]
    exact ⟨bs, hbs, henv⟩
  · rw [hcheck]
    rfl

/-- The errors of a number that is not about `main` are the own errors of all that is visited. -/
theorem Visited.numbered_errors {n : Nat} (h : Visited options p vs all) (hn : 1 < n) :
    (numbered n (check options p).2).Perm
      (all.flatMap fun v => numbered n (v.construct.ownErrors options v.place (check options p).1.arena.typeOf)) := by
  obtain ⟨env, herrors⟩ := h.errors
  have hperm := h.walk.errors fun v hv => (h.fits v hv).typed (h.ran v hv)
  have hmain : numbered n (reported (mainFault? env) p.span) = [] :=
    (ofNumbers_main env p.span).numbered_eq_nil (by simp; omega)
  rw [herrors, numbered_append, hmain, List.append_nil, ← numbered_flatMap]
  exact hperm.filter _

/-! ## What is visited -/

/-- What the declarations of a program have in them is found at what is visited. -/
theorem Visited.listed {α : Type} {f g : Construct → List α} (h : Visited options p vs all)
    (hfg : ∀ c, (f c).Perm (c.parts.flatMap f ++ g c)) :
    (p.decls.flatMap fun d => f d.construct).Perm (all.flatMap fun v => g v.construct) := by
  have hdecls : (vs.flatMap fun v => f v.construct) = p.decls.flatMap fun d => f d.construct := by
    rw [← List.flatMap_map, h.constructs, List.flatMap_map]
  rw [← hdecls]
  exact h.walk.listed hfg

end Typing

/-- Whether an expression is a list of initial values. -/
def Expr.isList : Expr → Bool
  | initList _ _ => true
  | _ => false

/-- The list of initial values of an array, which is checked element by element. -/
def VarDecl.lists (d : VarDecl) : List Expr :=
  match d.ty, d.init with
  | .array .void _, _ => []
  | .array _ _, some (.initList info elements) => [.initList info elements]
  | _, _ => []

/-- The expressions of a variable are checked, but for the list of an array. -/
theorem VarDecl.subexprs_eq (d : VarDecl) : d.subexprs = d.values.flatMap Expr.subtrees ++ d.lists := by
  unfold subexprs values
  split
  · rename_i hty
    simp only [lists, hty, List.append_nil]
  · rename_i info elements hvoid hty hinit
    have hlists : d.lists = [.initList info elements] := by
      unfold lists
      split
      · rename_i h
        cases hty.symm.trans h
        exact absurd rfl hvoid
      · rename_i hinit'
        cases hinit.symm.trans hinit'
        rfl
      · rename_i h
        exact absurd hinit (h _ _ _ _ hty)
    rw [hlists, hinit, Option.toList_some, List.flatMap_singleton, Expr.subtrees_eq]
    rfl
  · rename_i hvoid hlist
    have hlists : d.lists = [] := by
      unfold lists
      split
      · rfl
      · rename_i hty hinit
        exact absurd hinit (hlist _ _ _ _ hty)
      · rfl
    rw [hlists, List.append_nil]

theorem VarDecl.isList_of_mem_lists {d : VarDecl} {e : Expr} (he : e ∈ d.lists) : e.isList = true := by
  unfold lists at he
  split at he
  · cases he
  · rw [List.mem_singleton.1 he]
    rfl
  · cases he

namespace Construct

/-- All statements of a construct. The body of a function is one. -/
def statements : Construct → List Stmt
  | stmt s => s.subtrees
  | func f => f.body.toStmt.subtrees
  | _ => []

/-- The statement that a construct is, or has for its body. -/
def statement : Construct → List Stmt
  | stmt s => [s]
  | func f => [f.body.toStmt]
  | _ => []

/-- All expressions of a construct. -/
def subexprs : Construct → List Expr
  | expr _ e => e.subtrees
  | var d => d.subexprs
  | stmt s => s.subexprs
  | func f => f.body.toStmt.subexprs

/-- The expression that a construct is. -/
def root : Construct → List Expr
  | expr _ e => [e]
  | _ => []

/-- The expressions of a construct that are in none of its parts. -/
def own : Construct → List Expr
  | expr _ e => [e]
  | var d => d.lists
  | stmt _ => []
  | func _ => []

/-- All expressions of a construct but lists. -/
def unlisted (c : Construct) : List Expr := c.subexprs.filter (!·.isList)

/-- The expression that a construct is, unless it is a list. -/
def item (c : Construct) : List Expr := c.root.filter (!·.isList)

/-- The function that a construct is. -/
def functions : Construct → List Function
  | func f => [f]
  | _ => []

theorem statements_eq (c : Construct) : c.statements = c.parts.flatMap statements ++ c.statement := by
  have hnone {α : Type} (xs : List α) {f : α → Construct} (hf : ∀ x, (f x).statements = []) :
      (xs.map f).flatMap statements = [] := by
    rw [List.flatMap_map, List.flatMap_eq_nil_iff]
    exact fun x _ => hf x
  cases c with
  | expr whole e => rw [parts, hnone _ fun _ => rfl]; rfl
  | var d => rw [parts, hnone _ fun _ => rfl]; rfl
  | stmt s =>
    rw [parts, List.flatMap_append, List.flatMap_append, hnone _ fun _ => rfl, hnone _ fun _ => rfl, List.flatMap_map]
    exact s.subtrees_eq
  | func f =>
    rw [parts, List.flatMap_append, hnone _ fun _ => rfl, List.flatMap_map]
    exact f.body.toStmt.subtrees_eq

theorem subexprs_perm (c : Construct) : c.subexprs.Perm (c.parts.flatMap subexprs ++ c.own) := by
  have hexprs (whole : Bool) (es : List Expr) :
      (es.map (expr whole)).flatMap subexprs = es.flatMap Expr.subtrees := by
    rw [List.flatMap_map]
    rfl
  have hvars (ds : List VarDecl) : (ds.map var).flatMap subexprs = ds.flatMap VarDecl.subexprs := by
    rw [List.flatMap_map]
    rfl
  have hstmts (ss : List Stmt) : (ss.map stmt).flatMap subexprs = ss.flatMap Stmt.subexprs := by
    rw [List.flatMap_map]
    rfl
  cases c with
  | expr whole e =>
    rw [parts, hexprs]
    exact .of_eq e.subtrees_eq
  | var d =>
    rw [parts, hexprs]
    exact .of_eq d.subexprs_eq
  | stmt s =>
    rw [parts, List.flatMap_append, List.flatMap_append, hvars, hexprs, hstmts, own, List.append_nil, subexprs,
      s.subexprs_eq]
    exact List.perm_append_comm
  | func f =>
    rw [parts, List.flatMap_append, hvars, hstmts, own, List.append_nil, subexprs, Stmt.subexprs_eq]
    simpa [Stmt.ownExprs, Block.toStmt, Stmt.vars, Stmt.exprs, Stmt.stmts] using List.perm_append_comm

theorem filter_own (c : Construct) : c.own.filter (!·.isList) = c.item := by
  cases c with
  | var d => exact List.filter_eq_nil_iff.2 fun e he => by simp [VarDecl.isList_of_mem_lists he]
  | _ => rfl

theorem unlisted_perm (c : Construct) : c.unlisted.Perm (c.parts.flatMap unlisted ++ c.item) := by
  have hperm := c.subexprs_perm.filter (!·.isList)
  rwa [List.filter_append, List.filter_flatMap, filter_own] at hperm

/-- A function is part of no construct. -/
theorem functions_eq (c : Construct) : c.functions = c.parts.flatMap functions ++ c.functions := by
  have hnone : c.parts.flatMap functions = [] := by
    rw [List.flatMap_eq_nil_iff]
    intro d hd
    cases d with
    | func f => cases c <;> simp [parts] at hd
    | _ => rfl
  rw [hnone, List.nil_append]

end Construct

namespace Typing.Visited

/-- Every statement of a program is visited once, or is the body of a function that is. -/
theorem statements_perm (h : Visited options p vs all) : p.statements.Perm (all.flatMap (·.construct.statement)) := by
  have hdecls : p.statements = p.decls.flatMap fun d => d.construct.statements :=
    List.flatMap_congr fun d _ => by cases d <;> rfl
  rw [hdecls]
  exact h.listed fun c => .of_eq c.statements_eq

/-- Every expression of a program is visited once, except for lists. -/
theorem subexprs_perm (h : Visited options p vs all) :
    (p.subexprs.filter (!·.isList)).Perm (all.flatMap (·.construct.item)) := by
  have hdecls : p.subexprs.filter (!·.isList) = p.decls.flatMap fun d => d.construct.unlisted := by
    rw [Program.subexprs, List.filter_flatMap]
    exact List.flatMap_congr fun d _ => by cases d <;> rfl
  rw [hdecls]
  exact h.listed Construct.unlisted_perm

/-- Every expression of a program is visited, or is the list of an array that is. -/
theorem exists_owner (h : Visited options p vs all) {e : Expr} (he : e ∈ p.subexprs) :
    ∃ v ∈ all, e ∈ v.construct.own := by
  have hdecls : p.subexprs = p.decls.flatMap fun d => d.construct.subexprs :=
    List.flatMap_congr fun d _ => by cases d <;> rfl
  rw [hdecls] at he
  exact List.mem_flatMap.1 ((h.listed Construct.subexprs_perm).mem_iff.1 he)

/-- Behind the check an expression that is visited is of the type of its verdict. -/
theorem typeOf (h : Visited options p vs all) {v : Visit} (hv : v ∈ all) {whole : Bool} {e : Expr}
    (hc : v.construct = .expr whole e) : (check options p).1.arena.typeOf e.id =
      (e.verdict v.place.env whole (check options p).1.arena.typeOf).ty := by
  obtain ⟨ws, hws, hsplit⟩ := h.walk.splits v hv
  obtain ⟨after, hends⟩ := h.ran v hv
  rw [hc] at hends
  obtain ⟨e', -, hresult⟩ := Check.ends_map.1 hends
  rw [(h.fits v hv).typed (h.ran v hv) whole whole e e' hc hresult]
  exact hsplit.typed _ (fun w hw => (h.fits w (hws hw)).typed (h.ran w (hws hw))) whole whole e e' hc hresult

theorem exists_visit (h : Visited options p vs all) {e : Expr} (he : e ∈ p.subexprs) (hlist : e.isList = false) :
    ∃ v ∈ all, ∃ whole, v.construct = .expr whole e := by
  have hmem : e ∈ p.subexprs.filter (!·.isList) := List.mem_filter.2 ⟨he, by rw [hlist]; rfl⟩
  obtain ⟨v, hv, hroot⟩ := List.mem_flatMap.1 (h.subexprs_perm.mem_iff.1 hmem)
  refine ⟨v, hv, ?_⟩
  rw [Construct.item] at hroot
  cases hc : v.construct with
  | expr whole c =>
    rw [hc, Construct.root, List.mem_filter, List.mem_singleton] at hroot
    exact ⟨whole, by rw [hroot.1]⟩
  | _ =>
    rw [hc] at hroot
    cases hroot

/-- Every function of a program is visited once. -/
theorem functions_perm (h : Visited options p vs all) : p.functions.Perm (all.flatMap (·.construct.functions)) := by
  have hdecls : p.functions = p.decls.flatMap fun d => d.construct.functions := by
    rw [Program.functions, List.filterMap_eq_flatMap_toList]
    exact List.flatMap_congr fun d _ => by cases d <;> rfl
  rw [hdecls]
  exact h.listed fun c => .of_eq c.functions_eq

end Typing.Visited

end VCLang
