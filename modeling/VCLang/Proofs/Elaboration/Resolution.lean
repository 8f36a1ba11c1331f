/-
Names in declarations, statements and programs. The check opens and closes its scopes as they are read off the
links, so that what is open at a node is what is in sight there.
-/
import VCLang.Proofs.Elaboration.Names
import VCLang.Proofs.Elaboration.Passes
namespace VCLang

open Arena Typing

namespace Typing

variable {b : Arena} {env env' : Env} {library : List DeclId} {n n' : Nat} {e : Expr} {errors : List Error}
  {parent : NodeId}

/-! ## Declarations -/

/-- The node of a declaration, which is reported if it declares a name again. -/
theorem named_decl {d : DeclId} (node : DeclNode)
    (h : (env.retrieveOneLevel node.ident.spelling).isSome ↔ b.Redeclares library d) :
    b.Named library [.decl d node] (redeclaration env node.ident) := by
  constructor
  · intro id n ident hn
    cases List.mem_singleton.1 hn
  · rw [List.flatMap_singleton, nameErrors, redeclaration]
    split_ifs with hsome hagain hagain
    · exact .refl _
    · exact absurd (h.1 hsome) hagain
    · exact absurd (h.2 hagain) hsome
    · exact .nil

theorem ElaboratesInit.named {d d' : VarDecl} {p q : NodeId} (h : ElaboratesInit env n d d' n' errors)
    (hfresh : ∀ x ∈ d.entries p, x.Fresh) (hb : b.Has (d'.entries q)) (hopen : b.OpenAt library (.decl d'.id) env) :
    b.Named library (Expr.entriesOption (.decl d'.id) d'.init) errors := by
  rw [VarDecl.entries, has_append] at hb
  rw [VarDecl.entries, List.forall_mem_append] at hfresh
  have hroot : b.decl? d'.id = some ⟨d'.kind, d'.ident, d'.ty, d'.span, some q⟩ := hb.2 _ (List.mem_singleton.2 rfl)
  have hclosed : b.opensScope (.decl d'.id) = false := by rw [opensScope, hroot, Option.any_some, isFunction_kind]
  have hparts : ∀ y ∈ b.childrenOf (.decl d'.id), y.decl? = Option.none := by
    intro y hy
    rw [childrenOf, hroot] at hy
    simp only [Option.toList_some, List.flatMap_singleton, VarDecl.kind] at hy
    split at hy
    · obtain ⟨e, -, rfl⟩ := List.mem_map.1 hy
      rfl
    · obtain ⟨e, -, rfl⟩ := List.mem_map.1 hy
      rfl
  have hinside := hopen.inside hclosed hparts
  cases h with
  | none hnone hown =>
    rw [hnone]
    exact named_nil hown
  | value hsome hfirst he hc hown =>
    rw [hsome] at hfresh
    exact ((named_nil hfirst).append (he.named hc hfresh.1 hb.1 hinside)).report hown
  | list _ hsome _ helements hown =>
    rw [hsome] at hfresh
    obtain ⟨scopes, hsight, henv⟩ := hinside _ rfl (parentOf_expr hb.1)
    have hfresh' := hfresh.1
    have hb' := hb.1
    rw [Expr.entriesOption, Expr.entries, List.forall_mem_append] at hfresh'
    rw [Expr.entriesOption, Expr.entries, has_append] at hb'
    rw [Expr.entriesOption, Expr.entries]
    exact ((helements.named (fun e _ => namesExpr b library e) hfresh'.1 henv hb'.1 hsight).root rfl).report hown

theorem ElaboratesInit.ident {d d' : VarDecl} (h : ElaboratesInit env n d d' n' errors) : d'.ident = d.ident := by
  cases h <;> rfl

/-- A variable is declared behind what stands before it, and is in sight in its own initial value. -/
theorem ElaboratesInit.declared {d d' : VarDecl} {p q : NodeId} {ds more : List DeclId} {after : List NodeId}
    (hl : b.Linked library) (h : ElaboratesInit (env.insert d.ident.spelling d.binding) n d d' n' errors)
    (hfresh : ∀ x ∈ d.entries p, x.Fresh) (hb : b.Has (d'.entries q)) (hopen : b.OpenBehind library q ds env)
    (hchildren : b.childrenOf q = (ds ++ d'.id :: more).map .decl ++ after) :
    b.Named library (d'.entries q) (redeclaration env d.ident ++ errors) ∧
      b.OpenBehind library q (ds ++ [d'.id]) (env.insert d.ident.spelling d'.binding) := by
  let node : DeclNode := ⟨d'.kind, d'.ident, d'.ty, d'.span, some q⟩
  have hroot : b.Holds (.decl d'.id node) := hb _ (by simp [VarDecl.entries, node])
  have hname : b.nameOf d'.id = some d.ident.spelling := by
    have hdecl : b.decl? d'.id = some node := hroot
    rw [nameOf, hdecl]
    exact congrArg (fun i => some i.spelling) h.ident
  -- the name is bound while its initial value is checked, and bound again with the size that this gives
  obtain ⟨hat, -, hagain⟩ := hopen.declare d.binding hl hchildren hroot.parentOf hname h.id.symm
  obtain ⟨-, hbehind, -⟩ := hopen.declare d'.binding hl hchildren hroot.parentOf hname rfl
  have hinit := h.named hfresh hb hat
  rw [← h.ident] at hagain
  have hnode := named_decl node hagain
  refine ⟨?_, hbehind⟩
  rw [VarDecl.entries, ← h.ident]
  exact (hinit.append hnode).perm List.perm_append_comm

/-- Variables are declared one behind another. -/
theorem ElaboratesVars.named {vars vars' : List VarDecl} {p q : NodeId} {ds : List DeclId} {after : List NodeId}
    (hl : b.Linked library) (h : ElaboratesVars env n vars vars' env' n' errors)
    (hfresh : ∀ x ∈ vars.flatMap (VarDecl.entries p), x.Fresh) (hb : b.Has (vars'.flatMap (VarDecl.entries q)))
    (hopen : b.OpenBehind library q ds env)
    (hchildren : b.childrenOf q = (ds ++ vars'.map VarDecl.id).map .decl ++ after) :
    b.Named library (vars'.flatMap (VarDecl.entries q)) errors ∧
      b.OpenBehind library q (ds ++ vars'.map VarDecl.id) env' := by
  induction h generalizing ds with
  | nil => exact ⟨named_nil nameless_nil, by simpa using hopen⟩
  | @cons env env' d d' vars vars' n n₁ n' own more hinit _ ih =>
    rw [List.flatMap_cons, List.forall_mem_append] at hfresh
    rw [List.flatMap_cons, has_append] at hb
    rw [List.map_cons] at hchildren ⊢
    rw [List.flatMap_cons]
    obtain ⟨hfirst, hbehind⟩ := hinit.declared hl hfresh.1 hb.1 hopen hchildren
    have hmore : ds ++ d'.id :: vars'.map VarDecl.id = ds ++ [d'.id] ++ vars'.map VarDecl.id := by simp
    rw [hmore] at hchildren ⊢
    obtain ⟨hrest, hopen'⟩ := ih hfresh.2 hb.2 hbehind hchildren
    exact ⟨hfirst.append hrest, hopen'⟩

/-! ## Statements -/

theorem root_mem (s : Stmt) (p : NodeId) : s.entry p ∈ s.entries p := by
  cases s <;> simp [Stmt.entries]

theorem parentOf_stmt {s : Stmt} (hb : b.Has (s.entries parent)) : b.parentOf (.stmt s.id) = some parent :=
  (hb _ (root_mem s parent) : b.Holds (s.entry parent)).parentOf

/-- A statement that is no block declares nothing itself. -/
theorem inside_stmt {s : Stmt} {p : NodeId} (hs : ∀ info decls stmts, s ≠ .compound info decls stmts)
    (hb : b.Has (s.entries p)) (hopen : b.OpenAt library (.stmt s.id) env) : b.OpenInside library (.stmt s.id) env := by
  have hroot : b.Holds (s.entry p) := hb _ (root_mem s p)
  have hnode : b.stmt? s.id = some ⟨s.kind, s.span, some p⟩ := hroot
  have hchildren : b.childrenOf (.stmt s.id) = s.kind.children := hroot.childrenOf
  have hclosed : b.opensScope (.stmt s.id) = false := by
    rw [opensScope, hnode, Option.any_some]
    cases s with
    | compound info decls stmts => exact absurd rfl (hs info decls stmts)
    | _ => rfl
  refine hopen.inside hclosed ?_
  rw [hchildren]
  cases s with
  | compound info decls stmts => exact absurd rfl (hs info decls stmts)
  | forStmt =>
    intro y hy
    rcases List.mem_append.1 hy with hy | hy
    · obtain ⟨e, -, rfl⟩ := List.mem_map.1 hy
      rfl
    · rw [List.mem_singleton.1 hy]
      rfl
  | returnStmt =>
    intro y hy
    obtain ⟨e, -, rfl⟩ := List.mem_map.1 hy
    rfl
  | _ => simp [Stmt.kind, StmtKind.children, NodeId.decl?]

theorem ElaboratesForCondition.named {span : Span} {cond : Option Expr} {cond' : Expr} {p q : NodeId}
    (h : ElaboratesForCondition env n span cond cond' n' errors) (hfresh : ∀ x ∈ Expr.entriesOption p cond, x.Fresh)
    (hb : b.Has (cond'.entries q)) (hopen : b.OpenInside library q env) : b.Named library (cond'.entries q) errors := by
  cases h with
  | omitted => exact named_expr rfl
  | given h hown => exact (h.named .keep hfresh hb hopen).report hown

/-- The check of a statement resolves the names in it, wherever the open scopes are those in sight. -/
def NamesStmt (b : Arena) (library : List DeclId) (s : Stmt) : Prop :=
  ∀ ⦃env n s' n' errors p q⦄, ElaboratesStmt env n s s' n' errors → (∀ x ∈ s.entries p, x.Fresh) →
    b.Has (s'.entries (.stmt q)) → b.OpenAt library (.stmt s'.id) env → b.Named library (s'.entries (.stmt q)) errors

theorem ElaboratesStmts.named {ss ss' : List Stmt} {p : NodeId} {q : StmtId}
    (h : ElaboratesStmts env n ss ss' n' errors) (hss : ∀ s ∈ ss, NamesStmt b library s)
    (hfresh : ∀ x ∈ Stmt.entriesAll p ss, x.Fresh) (hb : b.Has (Stmt.entriesAll (.stmt q) ss'))
    (hopen : b.OpenInside library (.stmt q) env) :
    b.Named library (Stmt.entriesAll (.stmt q) ss') errors := by
  induction ss generalizing n ss' errors with
  | nil =>
    cases h
    exact named_nil nameless_nil
  | cons s ss ih =>
    cases h with
    | cons hs hown hrest =>
      rw [Stmt.entriesAll, List.forall_mem_append] at hfresh
      rw [Stmt.entriesAll, has_append] at hb
      rw [Stmt.entriesAll]
      have hfirst := hss s (by simp) hs hfresh.1 hb.1 (hopen _ rfl (parentOf_stmt hb.1))
      exact (hfirst.report hown).append (ih hrest (fun s hs => hss s (by simp [hs])) hfresh.2 hb.2)

/-- The variables and statements of a block, whose scope is open: that of the block, or of the function. -/
theorem named_block {info : StmtInfo} {decls decls' : List VarDecl} {stmts stmts' : List Stmt} {env₁ : Env} {n₁ : Nat}
    {more : List Error} {p q : NodeId} (hl : b.Linked library)
    (hvars : ElaboratesVars env n decls decls' env₁ n₁ errors)
    (hstmts : ElaboratesStmts env₁ n₁ stmts stmts' n' more) (hss : ∀ s ∈ stmts, NamesStmt b library s)
    (hfresh : ∀ x ∈ (Stmt.compound info decls stmts).entries p, x.Fresh)
    (hb : b.Has ((Stmt.compound info decls' stmts').entries q)) (hopen : b.OpenBehind library (.stmt info.id) [] env) :
    b.Named library ((Stmt.compound info decls' stmts').entries q) (errors ++ more) := by
  have hroot : b.Holds ((Stmt.compound info decls' stmts').entry q) := hb _ (root_mem _ q)
  have hchildren : b.childrenOf (.stmt info.id) =
      ([] ++ decls'.map VarDecl.id).map .decl ++ (stmts'.map Stmt.id).map .stmt := hroot.childrenOf
  have hafter : ∀ y ∈ (stmts'.map Stmt.id).map NodeId.stmt, y.decl? = none := by
    intro y hy
    obtain ⟨s, -, rfl⟩ := List.mem_map.1 hy
    rfl
  rw [Stmt.entries, List.forall_mem_append, List.forall_mem_append] at hfresh
  rw [Stmt.entries, has_append, has_append] at hb
  rw [Stmt.entries]
  obtain ⟨hfirst, hbehind⟩ := hvars.named hl hfresh.1.1 hb.1.1 hopen hchildren
  have hrest := hstmts.named hss hfresh.1.2 hb.1.2 (hbehind.inside hchildren hafter)
  exact (hfirst.append hrest).stmt _ _

/-- The names in a statement are resolved if those in the statements under it are. -/
theorem ElaboratesStmt.named_of_stmts {s s' : Stmt} {p : NodeId} {q : StmtId} (hl : b.Linked library)
    (h : ElaboratesStmt env n s s' n' errors) (hnames : ∀ t ∈ s.stmts, NamesStmt b library t)
    (hfresh : ∀ x ∈ s.entries p, x.Fresh) (hb : b.Has (s'.entries (.stmt q)))
    (hopen : b.OpenAt library (.stmt s'.id) env) : b.Named library (s'.entries (.stmt q)) errors := by
  cases h with
  | compound hvars hstmts =>
    have hroot : b.stmt? _ = some ⟨_, _, some (.stmt q)⟩ := hb _ (root_mem _ _)
    exact named_block hl hvars hstmts hnames hfresh hb (hopen.opening (by rw [opensScope, hroot]; rfl))
  | ifThen hc hown hthen =>
    have hinside := inside_stmt (by simp) hb hopen
    rw [Stmt.entries, List.forall_mem_append, List.forall_mem_append] at hfresh
    rw [Stmt.entries, has_append, has_append] at hb
    rw [Stmt.entries]
    have hcond := hc.named .keep hfresh.1.1 hb.1.1 hinside
    have hthen := hnames _ (by simp [Stmt.stmts]) hthen hfresh.1.2 hb.1.2 (hinside _ rfl (parentOf_stmt hb.1.2))
    exact ((hcond.report hown).append hthen).stmt _ _
  | ifElse hc hown hthen helse =>
    have hinside := inside_stmt (by simp) hb hopen
    rw [Stmt.entries, List.forall_mem_append, List.forall_mem_append, List.forall_mem_append] at hfresh
    rw [Stmt.entries, has_append, has_append, has_append] at hb
    rw [Stmt.entries]
    have hcond := hc.named .keep hfresh.1.1.1 hb.1.1.1 hinside
    have hthen := hnames _ (by simp [Stmt.stmts]) hthen hfresh.1.1.2 hb.1.1.2
      (hinside _ rfl (parentOf_stmt hb.1.1.2))
    have helse := hnames _ (by simp [Stmt.stmts]) helse hfresh.1.2 hb.1.2 (hinside _ rfl (parentOf_stmt hb.1.2))
    exact (((hcond.report hown).append hthen).append helse).stmt _ _
  | whileStmt hc hown hbody =>
    have hinside := inside_stmt (by simp) hb hopen
    rw [Stmt.entries, List.forall_mem_append, List.forall_mem_append] at hfresh
    rw [Stmt.entries, has_append, has_append] at hb
    rw [Stmt.entries]
    have hcond := hc.named .keep hfresh.1.1 hb.1.1 hinside
    have hbody := hnames _ (by simp [Stmt.stmts]) hbody hfresh.1.2 hb.1.2 (hinside _ rfl (parentOf_stmt hb.1.2))
    exact ((hcond.report hown).append hbody).stmt _ _
  | forStmt hi hc hu hbody =>
    have hinside := inside_stmt (by simp) hb hopen
    rw [Stmt.entries, List.forall_mem_append, List.forall_mem_append, List.forall_mem_append, List.forall_mem_append]
      at hfresh
    rw [Stmt.entries, has_append, has_append, has_append, has_append] at hb
    rw [Stmt.entries]
    have hinit := hi.named hfresh.1.1.1.1 hb.1.1.1.1 hinside
    have hcond := hc.named hfresh.1.1.1.2 hb.1.1.1.2 hinside
    have hupdate := hu.named hfresh.1.1.2 hb.1.1.2 hinside
    have hbody := hnames _ (by simp [Stmt.stmts]) hbody hfresh.1.2 hb.1.2 (hinside _ rfl (parentOf_stmt hb.1.2))
    exact (((hinit.append hcond).append hupdate).append hbody).stmt _ _
  | @breakStmt _ _ info _ hown => exact (named_stmt (s := .breakStmt info)).report hown
  | @continueStmt _ _ info _ hown => exact (named_stmt (s := .continueStmt info)).report hown
  | returnStmt hv =>
    have hinside := inside_stmt (by simp) hb hopen
    rw [Stmt.entries, List.forall_mem_append] at hfresh
    rw [Stmt.entries, has_append] at hb
    rw [Stmt.entries]
    exact (hv.named hfresh.1 hb.1 hinside).stmt _ _
  | exprStmt he =>
    have hinside := inside_stmt (by simp) hb hopen
    rw [Stmt.entries, List.forall_mem_append] at hfresh
    rw [Stmt.entries, has_append] at hb
    rw [Stmt.entries]
    exact (he.named .keep hfresh.1 hb.1 hinside).stmt _ _
  | @emptyStmt _ _ info => exact named_stmt (s := .emptyStmt info)

theorem namesStmt (hl : b.Linked library) (s : Stmt) : NamesStmt b library s := by
  induction s using Stmt.induct_stmts with
  | h s ih => exact fun _ _ _ _ _ _ _ h => h.named_of_stmts hl ih

/-! ## Functions and programs -/

/-- Parameters are declared as the first parts of a function. -/
theorem ElaboratesParams.named {ps : List Param} {q : NodeId} {ds : List DeclId} {after : List NodeId}
    (hl : b.Linked library) (h : ElaboratesParams env ps env' errors) (hb : b.Has (ps.map (Param.entry q)))
    (hopen : b.OpenBehind library q ds env)
    (hchildren : b.childrenOf q = (ds ++ ps.map Param.id).map .decl ++ after) :
    b.Named library (ps.map (Param.entry q)) errors ∧ b.OpenBehind library q (ds ++ ps.map Param.id) env' := by
  induction h generalizing ds with
  | nil => exact ⟨named_nil nameless_nil, by simpa using hopen⟩
  | @cons env env' p ps own more hown _ ih =>
    rw [List.map_cons] at hb hchildren
    have hroot : b.Holds (p.entry q) := hb _ (by simp)
    have hdecl : b.decl? p.id = some ⟨.param, p.ident, p.ty, p.span, some q⟩ := hroot
    have hname : b.nameOf p.id = some p.ident.spelling := by rw [nameOf, hdecl, Option.map_some]
    obtain ⟨-, hbehind, hagain⟩ := hopen.declare p.binding hl hchildren hroot.parentOf hname rfl
    have hnode := named_decl ⟨.param, p.ident, p.ty, p.span, some q⟩ hagain
    have hmore : ds ++ p.id :: ps.map Param.id = ds ++ [p.id] ++ ps.map Param.id := by simp
    rw [hmore] at hchildren
    obtain ⟨hrest, hopen'⟩ := ih (fun x hx => hb x (List.mem_cons_of_mem _ hx)) hbehind hchildren
    refine ⟨(hnode.report hown).append hrest, ?_⟩
    rwa [List.map_cons, hmore]

theorem ElaboratesFunction.named {f f' : Function} (hl : b.Linked library) (h : ElaboratesFunction env n f f' n' errors)
    (hfresh : ∀ x ∈ f.entries, x.Fresh) (hb : b.Has f'.entries)
    (hopen : b.OpenAt library (.decl f.id) (env.insert f.ident.spelling f.binding))
    (hagain : (env.retrieveOneLevel f.ident.spelling).isSome ↔ b.Redeclares library f.id) :
    b.Named library f'.entries errors := by
  rw [Function.entries, List.forall_mem_append, List.forall_mem_append] at hfresh
  cases h with
  | @mk env₁ env₂ decls' stmts' hasReturn n₁ _ first second more own hparams hvars hstmts hown =>
    rw [Function.entries, has_append, has_append] at hb
    rw [Function.entries]
    let node : DeclNode :=
      ⟨.func (f.params.map Param.id) (some f.body.info.id) hasReturn, f.ident, f.ty, f.span, some .program⟩
    have hroot : b.Holds (.decl f.id node) := hb.2 _ (List.mem_singleton.2 rfl)
    have hdecl : b.decl? f.id = some node := hroot
    have hopens : b.opensScope (.decl f.id) = true := by
      rw [opensScope, hdecl]
      rfl
    have hchildren : b.childrenOf (.decl f.id) = ([] ++ f.params.map Param.id).map .decl ++ [.stmt f.body.info.id] :=
      hroot.childrenOf
    obtain ⟨hfirst, hbehind⟩ := hparams.named hl hb.1.1 (hopen.opening hopens) hchildren
    -- the body is in the scope of the parameters
    have hbody := hbehind.inside hchildren (by simp [NodeId.decl?]) _ rfl (parentOf_stmt hb.1.2)
    have hblock : b.stmt? f.body.info.id =
        some ⟨.compound (decls'.map VarDecl.id) (stmts'.map Stmt.id), f.body.info.span, some (.decl f.id)⟩ :=
      hb.1.2 _ (root_mem _ _)
    have hclosed : b.opensScope (.stmt f.body.info.id) = false := by
      rw [opensScope, hblock]
      rfl
    have hrest := named_block hl hvars hstmts (fun s _ => namesStmt hl s) hfresh.1.2 hb.1.2 (hbody.within hclosed)
    have hnode := named_decl node hagain
    have hperm := (@List.perm_append_comm _ (redeclaration env f.ident) (first ++ (second ++ more))).append_right own
    refine (((hfirst.append hrest).append hnode).report hown).perm ?_
    simpa using hperm

/-- Declarations outside all functions are the parts of the program. -/
theorem ElaboratesTops.named {tops tops' : List TopDecl} {ds : List DeclId} (hl : b.Linked library)
    (h : ElaboratesTops env n tops tops' n' errors) (hfresh : ∀ x ∈ tops.flatMap TopDecl.entries, x.Fresh)
    (hb : b.Has (tops'.flatMap TopDecl.entries)) (hopen : b.OpenBehind library .program ds env)
    (hchildren : b.childrenOf .program = (ds ++ tops'.map TopDecl.id).map .decl ++ []) :
    b.Named library (tops'.flatMap TopDecl.entries) errors := by
  induction h generalizing ds with
  | nil => exact named_nil nameless_nil
  | @func env n n₁ n' f f' tops tops' errors more hf _ ih =>
    rw [List.flatMap_cons, List.forall_mem_append] at hfresh
    rw [List.flatMap_cons, has_append] at hb
    rw [List.map_cons] at hchildren
    rw [List.flatMap_cons]
    obtain ⟨hid, hident⟩ : f'.id = f.id ∧ f'.ident = f.ident := by
      cases hf
      exact ⟨rfl, rfl⟩
    have hroot := hb.1 (.decl f'.id ⟨.func (f'.params.map Param.id) (some f'.body.id) f'.hasReturn, f'.ident, f'.ty,
      f'.span, some .program⟩) (by simp [TopDecl.entries, Function.entries])
    have hname : b.nameOf f'.id = some f.ident.spelling := by
      have hdecl : b.decl? f'.id = some _ := hroot
      rw [nameOf, hdecl, Option.map_some, hident]
    obtain ⟨hat, hbehind, hagain⟩ := hopen.declare f.binding hl hchildren hroot.parentOf hname hid.symm
    have hroot' : (TopDecl.func f').id = f.id := hid
    rw [hroot'] at hat hagain
    have hfirst := hf.named hl hfresh.1 hb.1 hat hagain
    exact hfirst.append (ih hfresh.2 hb.2 hbehind (by simpa using hchildren))
  | @var env n n₁ n' d d' tops tops' own more hinit _ ih =>
    rw [List.flatMap_cons, List.forall_mem_append] at hfresh
    rw [List.flatMap_cons, has_append] at hb
    rw [List.map_cons] at hchildren
    rw [List.flatMap_cons]
    obtain ⟨hfirst, hbehind⟩ := hinit.declared hl hfresh.1 hb.1 hopen hchildren
    exact hfirst.append (ih hfresh.2 hb.2 hbehind (by simpa [TopDecl.id] using hchildren))

/-- The library functions are declared in the global scope before the program. -/
theorem openAt_program {fs : List Prototype} (hb : b.Has (fs.flatMap Prototype.entries)) :
    b.OpenAt (fs.map fun f => f.id) .program (Library.bindAll .empty fs) := by
  have hall (scope : List DeclId) (env : Env) (henv : b.Mirrors env [scope]) :
      b.Mirrors (Library.bindAll env fs) [scope ++ fs.map fun f => f.id] := by
    induction fs generalizing scope env with
    | nil =>
      rw [List.map_nil, List.append_nil]
      exact henv
    | cons f fs ih =>
      rw [List.flatMap_cons, has_append] at hb
      have hdecl : b.decl? f.id = some ⟨.func (f.params.map Param.id) none false, f.ident, f.ty, f.span, none⟩ :=
        hb.1 _ f.root_mem
      have hname : b.nameOf f.id = some f.ident.spelling := by rw [nameOf, hdecl, Option.map_some]
      have hrest := ih hb.2 (scope ++ [f.id]) (env.insert f.ident.spelling f.binding) (henv.insert hname)
      show b.Mirrors (Library.bindAll (env.insert f.ident.spelling f.binding) fs) _
      simpa using hrest
  exact ⟨_, .program, hall [] .empty (.cons .nil .nil)⟩

/-- Neither a library function nor a parameter of one is in the program, to declare a name again there. -/
theorem named_prototypes {fs : List Prototype} (hb : b.Has (fs.flatMap Prototype.entries)) :
    b.Named library (fs.flatMap Prototype.entries) [] := by
  have hfunction {d : DeclId} {scopes : List (List DeclId)} (hd : b.parentOf (.decl d) = none) :
      ¬ b.InSight library (.decl d) scopes := by
    intro h
    cases h with
    | part hp _ => cases hd.symm.trans hp
  have hparam {d f : DeclId} {scopes : List (List DeclId)} (hd : b.parentOf (.decl d) = some (.decl f))
      (hf : b.parentOf (.decl f) = none) : ¬ b.InSight library (.decl d) scopes := by
    intro h
    cases h with
    | part hp hq =>
      cases hd.symm.trans hp
      exact hfunction hf hq
  have hnone : ∀ x ∈ fs.flatMap Prototype.entries, b.nameErrors library x = [] := by
    intro x hx
    obtain ⟨f, hf, hx⟩ := List.mem_flatMap.1 hx
    have hroot : b.parentOf (.decl f.id) = none := (hb _ (List.mem_flatMap.2 ⟨f, hf, f.root_mem⟩)).parentOf
    rw [Prototype.entries, List.mem_append, List.mem_map, List.mem_singleton] at hx
    rcases hx with ⟨p, hp, rfl⟩ | rfl
    · have hpart : b.parentOf (.decl p.id) = some (.decl f.id) :=
        (hb _ (List.mem_flatMap.2 ⟨f, hf, Prototype.param_mem hp⟩)).parentOf
      refine if_neg ?_
      rintro ⟨_, _, _, hsight, -⟩
      exact hparam hpart hroot hsight
    · refine if_neg ?_
      rintro ⟨_, _, _, hsight, -⟩
      exact hfunction hroot hsight
  constructor
  · exact fun id n ident hn _ => absurd hn not_mem_prototypes
  · rw [List.flatMap_eq_nil_iff.2 hnone]
    exact .nil

end Typing

/-! ## What a check binds and reports -/

namespace Arena

variable {b : Arena} {library : List DeclId}

/-- The error for a declaration of a name that is declared already. -/
def redeclaredError? (a : Arena) (d : DeclId) : Option Error := (a.decl? d).map DeclNode.redeclaredError

/-- Every name is bound as lexical scoping has it, and what is reported about names is one error for each use of
a name without a declaration, for each call of `main` and for each declaration of a name that is declared already
in its scope. -/
structure NamesResolved (a : Arena) (library : List DeclId) (errors : List Error) : Prop where
  uses : ∀ id n ident, a.expr? id = some n → n.kind.ident? = some ident → a.UseResolved library id n ident
  reported : ∃ again : List DeclId, again.Nodup ∧ (∀ d, d ∈ again ↔ a.Redeclares library d) ∧
    (errors.filter (·.fault.isOfName)).Perm
      (a.exprs.toList.filterMap ExprNode.useError? ++ again.filterMap a.redeclaredError?)

open Classical in
/-- The errors about the names of nodes are those of the expressions and those of the declarations. -/
theorem nameErrors_perm {es : List Entry} (hb : b.Has es) : (es.flatMap (b.nameErrors library)).Perm
    (((es.filterMap Entry.expr?).map Prod.snd).filterMap ExprNode.useError? ++
      ((es.filterMap fun x => x.id.decl?).filter (b.Redeclares library ·)).filterMap b.redeclaredError?) := by
  induction es with
  | nil => exact .nil
  | cons x es ih =>
    have hrest := ih fun y hy => hb y (List.mem_cons_of_mem _ hy)
    have hx : b.Holds x := hb x (by simp)
    rw [List.flatMap_cons]
    cases x with
    | expr id n =>
      have happend := List.Perm.append_left n.useError?.toList hrest
      cases herror : n.useError? <;> simpa [nameErrors, Entry.expr?, Entry.id, NodeId.decl?, herror] using happend
    | stmt id n => exact hrest
    | decl d n =>
      have hdecl : b.decl? d = some n := hx
      have herror : b.redeclaredError? d = some n.redeclaredError := by rw [redeclaredError?, hdecl, Option.map_some]
      have hexprs : (Entry.decl d n :: es).filterMap Entry.expr? = es.filterMap Entry.expr? := rfl
      have hdecls : (Entry.decl d n :: es).filterMap (fun x => x.id.decl?) =
          d :: es.filterMap fun x => x.id.decl? := rfl
      rw [hexprs, hdecls, nameErrors]
      by_cases hagain : b.Redeclares library d
      · rw [if_pos hagain, List.filter_cons_of_pos (by simpa using hagain), List.filterMap_cons_some herror]
        exact (hrest.cons n.redeclaredError).trans List.perm_middle.symm
      · rw [if_neg hagain, List.filter_cons_of_neg (by simpa using hagain)]
        exact hrest

/-- What is so of all nodes of a program is so of its flat form. -/
theorem Named.resolved {p : Program} {errors : List Error} (h : p.arena.Named library p.entries errors)
    (hp : p.Complete) : p.arena.NamesResolved library errors := by
  classical
  refine ⟨fun id n ident hn => h.uses id n ident ((hp.holds_iff _).1 hn), ?_⟩
  refine ⟨(p.entries.filterMap fun x => x.id.decl?).filter (p.arena.Redeclares library ·), ?_, ?_, ?_⟩
  · have hids : (p.entries.filterMap fun x => x.id.decl?).map DeclId.index = declIds p.entries := by
      rw [declIds, List.map_filterMap, List.map_filterMap]
      congr 1
      funext x
      cases x <;> rfl
    refine List.Nodup.filter _ (List.Nodup.of_map DeclId.index ?_)
    rw [hids]
    exact hp.decls.nodup
  · intro d
    rw [List.mem_filter, decide_eq_true_iff]
    refine ⟨fun h => h.2, fun h => ⟨?_, h⟩⟩
    obtain ⟨_, _, name, -, hname, -⟩ := h
    obtain ⟨n, hn, -⟩ := Option.map_eq_some_iff.1 hname
    exact List.mem_filterMap.2 ⟨.decl d n, (hp.holds_iff _).1 hn, rfl⟩
  · have hexprs : p.arena.exprs.toList.Perm ((p.entries.filterMap Entry.expr?).map Prod.snd) := place_perm hp.exprs
    exact (h.reported.trans (nameErrors_perm hp.has)).trans ((hexprs.filterMap _).symm.append_right _)

end Arena

theorem named_check (options : Options) {p : Program} (hp : p.Closed) (hplain : p.Plain)
    (hfresh : ∀ x ∈ p.entries, x.Fresh) :
    (check options p).1.arena.Named ((check options p).1.predeclared.map fun f => f.id) (check options p).1.entries
      (check options p).2 := by
  have hclosed := closed_check options hp
  have hl := hclosed.complete.linked hclosed.bound
  have hall := hclosed.complete.has
  obtain ⟨ds', n', errors, own, htops, hown, hcheck⟩ := check_elaborates options p
  have hlibrary : ((check options p).1.predeclared.map fun f => f.id) =
      (Library.prototypesFor p).map fun f => f.id := by
    rw [hcheck]
    show (p.predeclared ++ Library.prototypesFor p).map _ = _
    rw [hplain.predeclared, List.nil_append]
  have hentries : (check options p).1.entries =
      ds'.flatMap TopDecl.entries ++ (Library.prototypesFor p).flatMap Prototype.entries := by
    rw [hcheck]
    exact hplain.entries_checked ds'
  have hchildren : (check options p).1.arena.childrenOf .program = ([] ++ ds'.map TopDecl.id).map .decl ++ [] := by
    rw [hcheck, List.append_nil]
    rfl
  have herrors : (check options p).2 = errors ++ own := by rw [hcheck]
  rw [hlibrary] at hl
  rw [hentries, has_append] at hall
  rw [hplain.entries_eq] at hfresh
  have hopen := (openAt_program hall.2).within rfl
  have hdecls := htops.named hl hfresh hall.1 hopen hchildren
  rw [hlibrary, hentries, herrors]
  refine Named.report ?_ hown
  rw [← List.append_nil errors]
  exact hdecls.append (named_prototypes hall.2)

/-- Whatever a check reports of what was parsed, it binds every name as lexical scoping has it, and of names it
reports exactly those without a declaration, the calls of `main` and the declarations of a name that its scope
has already. -/
theorem check_resolves_names {source : String} {p : Program} (h : (parse source).result = .ok p) (options : Options) :
    (check options p).1.arena.NamesResolved ((check options p).1.predeclared.map fun f => f.id) (check options p).2 := by
  have hclosed := closed_parse h
  have hnamed := named_check options hclosed (parse_built h).1 (parse_fresh h)
  exact hnamed.resolved (complete_check options hclosed.complete)

/-- A name that is used before it is declared, a parameter that is declared again and a call of `main`. -/
theorem check_resolves_names_shadowed : ∃ source p, (parse source).result = .ok p ∧
    (check .standard p).1.arena.NamesResolved ((check .standard p).1.predeclared.map fun f => f.id)
      (check .standard p).2 := by
  let source := "int f(int a){int a = a; {int a; a = b;} return main();} int b; float putInt(){return f(b);}"
  have hparses : (parse source).result.isOk = true := by decide +kernel
  obtain ⟨p, hp⟩ := exists_of_isOk hparses
  exact ⟨source, p, hp, check_resolves_names hp .standard⟩

end VCLang
