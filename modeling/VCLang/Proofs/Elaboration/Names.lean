/-
The scopes of a check are the scopes of the program. At every node the check has open what is in sight there, so
that it binds names as lexical scoping has them and reports those that have no declaration, or two in one scope.
-/
import VCLang.Proofs.Arena.Sight
import VCLang.Proofs.Elaboration.Renumbering
import VCLang.Proofs.Typing.Nodes
namespace VCLang

open Typing

/-! ## Open scopes -/

namespace Arena

variable {b : Arena} {env : Env} {scope library : List DeclId} {scopes : List (List DeclId)}
  {bindings : List (String × Binding)}

/-- Bindings are those of a list of declarations, each under the name that is declared. -/
def Lists (b : Arena) (bindings : List (String × Binding)) (ds : List DeclId) : Prop :=
  List.Forall₂ (fun x d => x.2.decl = d ∧ b.nameOf d = some x.1) bindings ds

/-- Open scopes bind what some scopes of the program declare, the latest first. -/
def Mirrors (b : Arena) (env : Env) (scopes : List (List DeclId)) : Prop :=
  List.Forall₂ (fun bindings scope => b.Lists bindings scope.reverse) (env.innermost :: env.outer) scopes

theorem Lists.lookup {ds : List DeclId} (h : b.Lists bindings ds) (name : String) :
    (bindings.lookup name).map (·.decl) = ds.find? fun d => b.nameOf d = some name := by
  induction h with
  | nil => rfl
  | @cons x d _ _ hx _ ih =>
    obtain ⟨rfl, hname⟩ := hx
    rw [List.lookup_cons, List.find?_cons, hname]
    by_cases heq : name = x.1
    · simp [heq]
    · have hne : ¬ x.1 = name := fun h => heq h.symm
      simp [beq_false_of_ne heq, hne, ih]

theorem Mirrors.retrieve (h : b.Mirrors env scopes) (name : String) :
    (env.retrieve name).map (·.decl) = b.resolve scopes name := by
  have hall {all : List (List (String × Binding))} {scopes : List (List DeclId)}
      (h : List.Forall₂ (fun bindings scope => b.Lists bindings scope.reverse) all scopes) :
      (all.findSome? (·.lookup name)).map (·.decl) = scopes.findSome? (b.latest name) := by
    induction h with
    | nil => rfl
    | @cons bindings scope _ _ hx _ ih =>
      have hlatest : (bindings.lookup name).map (·.decl) = b.latest name scope := Lists.lookup hx name
      rw [List.findSome?_cons, List.findSome?_cons, ← hlatest]
      cases bindings.lookup name with
      | none => exact ih
      | some binding => rfl
  exact hall h

/-- The innermost scope has a name exactly if it was declared there. -/
theorem Mirrors.isSome_retrieveOneLevel (h : b.Mirrors env (scope :: scopes)) (name : String) :
    (env.retrieveOneLevel name).isSome ↔ ∃ e ∈ scope, b.nameOf e = some name := by
  cases h with
  | cons hx _ =>
    have hfind := Lists.lookup hx name
    have hsome : (env.retrieveOneLevel name).isSome =
        (scope.reverse.find? fun d => decide (b.nameOf d = some name)).isSome := by
      rw [← hfind, Option.isSome_map]
      rfl
    rw [hsome, List.find?_isSome]
    simp

theorem Mirrors.openScope (h : b.Mirrors env scopes) : b.Mirrors env.openScope ([] :: scopes) := .cons .nil h

theorem Mirrors.insert {name : String} {binding : Binding} (h : b.Mirrors env scopes)
    (hname : b.nameOf binding.decl = some name) :
    b.Mirrors (env.insert name binding) (declaring [binding.decl] scopes) := by
  cases h with
  | cons hx hxs =>
    refine .cons ?_ hxs
    rw [List.reverse_append, List.reverse_singleton]
    exact .cons ⟨rfl, hname⟩ hx

/-! ## Places -/

variable {q x : NodeId} {ds : List DeclId}

/-- At a node the open scopes are those in sight. -/
def OpenAt (b : Arena) (library : List DeclId) (x : NodeId) (env : Env) : Prop :=
  ∃ scopes, b.InSight library x scopes ∧ b.Mirrors env scopes

/-- Behind some declarations that are the first parts of a node the open scopes are those in sight. -/
def OpenBehind (b : Arena) (library : List DeclId) (q : NodeId) (ds : List DeclId) (env : Env) : Prop :=
  ∃ scopes, b.InSight library q scopes ∧ b.Mirrors env (declaring ds (b.entering q scopes))

theorem OpenAt.within (h : b.OpenAt library q env) (hq : b.opensScope q = false) : b.OpenBehind library q [] env := by
  obtain ⟨scopes, hsight, henv⟩ := h
  refine ⟨scopes, hsight, ?_⟩
  rw [entering, hq, declaring_nil (by simpa using hsight.ne_nil)]
  simpa using henv

theorem OpenAt.opening (h : b.OpenAt library q env) (hq : b.opensScope q = true) :
    b.OpenBehind library q [] env.openScope := by
  obtain ⟨scopes, hsight, henv⟩ := h
  refine ⟨scopes, hsight, ?_⟩
  rw [entering, hq]
  exact henv.openScope

/-- At the parts of a node that declare nothing the open scopes are those in sight. -/
def OpenInside (b : Arena) (library : List DeclId) (q : NodeId) (env : Env) : Prop :=
  ∀ x, x.decl? = none → b.parentOf x = some q → b.OpenAt library x env

/-- The other parts of a node stand behind its declarations. -/
theorem OpenBehind.inside {after : List NodeId} (h : b.OpenBehind library q ds env)
    (hchildren : b.childrenOf q = ds.map .decl ++ after) (hafter : ∀ y ∈ after, y.decl? = none) :
    b.OpenInside library q env := by
  intro x hx hparent
  obtain ⟨scopes, hsight, henv⟩ := h
  -- between the declarations and the part nothing is declared
  have hnone : (after.takeWhile (· ≠ x) ++ [x]).filterMap NodeId.decl? = [] := by
    rw [List.filterMap_eq_nil_iff]
    intro y hy
    rcases List.mem_append.1 hy with hy | hy
    · exact hafter y ((List.takeWhile_sublist _).subset hy)
    · rwa [List.mem_singleton.1 hy]
  have hpass : ∀ y ∈ ds.map NodeId.decl, decide (y ≠ x) = true := by
    intro y hy
    obtain ⟨d, -, rfl⟩ := List.mem_map.1 hy
    rw [decide_eq_true_iff]
    rintro rfl
    cases hx
  have hdecls : (b.partsUpTo q x).filterMap NodeId.decl? = ds := by
    rw [partsUpTo, hchildren, List.takeWhile_append_of_pos hpass, List.append_assoc, List.filterMap_append, hnone,
      List.append_nil, List.filterMap_map]
    exact List.filterMap_some
  have hpart := InSight.part hparent hsight
  rw [hdecls] at hpart
  exact ⟨_, hpart, henv⟩

theorem OpenAt.inside (h : b.OpenAt library q env) (hq : b.opensScope q = false)
    (hparts : ∀ y ∈ b.childrenOf q, y.decl? = none) : b.OpenInside library q env :=
  (h.within hq).inside rfl hparts

/-- The next of the declarations is in sight at itself and behind itself, and the innermost scope has its name
already exactly if it declares it again. -/
theorem OpenBehind.declare {d : DeclId} {more : List DeclId} {after : List NodeId} {name : String}
    (h : b.OpenBehind library q ds env) (binding : Binding) (hl : b.Linked library)
    (hchildren : b.childrenOf q = (ds ++ d :: more).map .decl ++ after) (hparent : b.parentOf (.decl d) = some q)
    (hname : b.nameOf d = some name) (hbinding : binding.decl = d) :
    b.OpenAt library (.decl d) (env.insert name binding) ∧
      b.OpenBehind library q (ds ++ [d]) (env.insert name binding) ∧
      ((env.retrieveOneLevel name).isSome ↔ b.Redeclares library d) := by
  obtain ⟨scopes, hsight, henv⟩ := h
  subst hbinding
  -- a node is named once by its parent, so that it is not one of those before it
  have hbefore : NodeId.decl binding.decl ∉ ds.map .decl := by
    have hcount := hl.child_of_parent _ _ hparent
    rw [hchildren, List.map_append, List.map_cons, List.append_assoc, List.count_append, List.cons_append,
      List.count_cons_self] at hcount
    exact List.count_eq_zero.1 (by omega)
  have hdecls : (b.partsUpTo q (.decl binding.decl)).filterMap NodeId.decl? = ds ++ [binding.decl] := by
    rw [partsUpTo_eq (by simpa using hchildren) hbefore, List.filterMap_append, List.filterMap_map]
    exact congrArg (· ++ _) List.filterMap_some
  have hpart := InSight.part hparent hsight
  have hinsert := henv.insert hname
  rw [hdecls, declaring_append] at hpart
  refine ⟨⟨_, hpart, hinsert⟩, ⟨scopes, hsight, ?_⟩, ?_⟩
  · rw [declaring_append]
    exact hinsert
  · cases hscopes : declaring ds (b.entering q scopes) with
    | nil => exact absurd hscopes (declaring_ne_nil _ _)
    | cons scope outer =>
      rw [hscopes] at henv hpart
      rw [henv.isSome_retrieveOneLevel]
      constructor
      · exact fun hagain => ⟨scope, outer, name, hpart, hname, hagain⟩
      · rintro ⟨before, outer', name', hsight', hname', hagain⟩
        have heq := hpart.unique hsight'
        simp only [declaring, List.cons.injEq, List.append_left_inj] at heq
        cases hname.symm.trans hname'
        rw [heq.1]
        exact hagain

/-! ## Errors about the names of nodes -/

open Classical in
/-- The errors about the name that a node uses or declares. -/
noncomputable def nameErrors (b : Arena) (library : List DeclId) : Entry → List Error
  | .expr _ n => n.useError?.toList
  | .stmt _ _ => []
  | .decl d n => if b.Redeclares library d then [n.redeclaredError] else []

/-- The names of some nodes are bound as lexical scoping has them, and what is reported about names is what is
wrong with them. -/
structure Named (b : Arena) (library : List DeclId) (es : List Entry) (errors : List Error) : Prop where
  uses : ∀ id n ident, .expr id n ∈ es → n.kind.ident? = some ident → b.UseResolved library id n ident
  reported : (errors.filter (·.fault.isOfName)).Perm (es.flatMap (b.nameErrors library))

variable {es fs : List Entry} {errors more own : List Error}

theorem filter_nameless (h : Nameless own) : own.filter (·.fault.isOfName) = [] :=
  List.filter_eq_nil_iff.2 fun x hx => by simp [h x hx]

theorem named_nil (h : Nameless own) : b.Named library [] own := by
  refine ⟨by simp, ?_⟩
  rw [filter_nameless h]
  exact .nil

theorem Named.append (h : b.Named library es errors) (h' : b.Named library fs more) :
    b.Named library (es ++ fs) (errors ++ more) := by
  constructor
  · intro id n ident hn hident
    rcases List.mem_append.1 hn with hn | hn
    · exact h.uses id n ident hn hident
    · exact h'.uses id n ident hn hident
  · rw [List.filter_append, List.flatMap_append]
    exact h.reported.append h'.reported

/-- The order of errors has no part in this. -/
theorem Named.perm (h : b.Named library es errors) (hperm : more.Perm errors) : b.Named library es more :=
  ⟨h.uses, (hperm.filter _).trans h.reported⟩

/-- Nor have errors that are not about names. -/
theorem Named.report (h : b.Named library es errors) (hown : Nameless own) : b.Named library es (errors ++ own) := by
  refine ⟨h.uses, ?_⟩
  rw [List.filter_append, filter_nameless hown, List.append_nil]
  exact h.reported

theorem named_stmt {s : Stmt} {parent : NodeId} : b.Named library [s.entry parent] [] :=
  ⟨by simp [Stmt.entry], .nil⟩

theorem Named.stmt (h : b.Named library es errors) (s : Stmt) (parent : NodeId) :
    b.Named library (es ++ [s.entry parent]) errors := by
  rw [← List.append_nil errors]
  exact h.append named_stmt

/-- An expression that uses no name itself. -/
theorem named_expr {e : Expr} {parent : NodeId} (h : e.kind.ident? = none) : b.Named library [e.entry parent] [] := by
  have herror : (e.node parent).useError? = none := by
    unfold ExprNode.useError?
    cases e <;> first
      | rfl
      | cases h
  constructor
  · intro id n ident hn hident
    cases List.mem_singleton.1 hn
    cases h.symm.trans hident
  · simp [Expr.entry, nameErrors, herror]

theorem Named.root (h : b.Named library es errors) {e : Expr} {parent : NodeId} (he : e.kind.ident? = none) :
    b.Named library (es ++ [e.entry parent]) errors := by
  rw [← List.append_nil errors]
  exact h.append (named_expr he)

theorem named_use {e : Expr} {parent : NodeId} {ident : Ident} (hident : e.kind.ident? = some ident)
    (huse : b.UseResolved library e.id (e.node parent) ident)
    (herrors : errors.filter (·.fault.isOfName) = (e.node parent).useError?.toList) :
    b.Named library [e.entry parent] errors := by
  constructor
  · intro id n ident' hn hident'
    cases List.mem_singleton.1 hn
    cases hident.symm.trans hident'
    exact huse
  · rw [herrors, List.flatMap_singleton]
    exact .refl _

end Arena

namespace Typing

open Arena

variable {b : Arena} {env env' : Env} {library : List DeclId} {scopes : List (List DeclId)} {n n' : Nat}
  {e e' checked : Expr} {errors own : List Error} {parent parent' : NodeId}

/-! ## Expressions -/

/-- A name that is used gets the declaration in sight, and is reported if there is none. -/
theorem Uses.resolved {ident ident' : Ident} {span : Span} {t : Ty} (h : Uses env ident span ident' t own)
    (henv : b.Mirrors env scopes) (hfresh : ident.decl = none) :
    ident'.spelling = ident.spelling ∧ ident'.span = ident.span ∧ ident'.decl = b.resolve scopes ident'.spelling ∧
      (ident'.decl = none → t = .error) ∧ own.filter (·.fault.isOfName) =
        (if ident'.decl.isNone then some ⟨.undeclared ident'.spelling, span⟩ else none : Option Error).toList := by
  have hretrieve := henv.retrieve ident.spelling
  cases h with
  | unbound hnone =>
    rw [hnone] at hretrieve
    refine ⟨rfl, rfl, hfresh.trans hretrieve, fun _ => rfl, ?_⟩
    rw [hfresh]
    rfl
  | @bound binding _ _ hsome hown =>
    rw [hsome] at hretrieve
    refine ⟨rfl, rfl, hretrieve, fun hnone => ?_, ?_⟩
    · cases hnone
    · rw [filter_nameless hown]
      rfl

theorem inSight_part {e : Expr} {q : ExprId} (h : b.InSight library (.expr q) scopes)
    (hb : b.Has (e.entries (.expr q))) : b.InSight library (.expr e.id) scopes := by
  have hroot : b.Holds (e.entry (.expr q)) := hb _ (entry_mem_entries e _)
  exact h.expr_part hroot.parentOf

/-- The check of an expression resolves the names in it, wherever the open scopes are those in sight. -/
def NamesExpr (b : Arena) (library : List DeclId) (e : Expr) : Prop :=
  ∀ ⦃env n e' n' errors parent parent' scopes⦄, Elaborates env n e e' n' errors → (∀ x ∈ e.entries parent, x.Fresh) →
    b.Mirrors env scopes → b.Has (e'.entries parent') → b.InSight library (.expr e'.id) scopes →
    b.Named library (e'.entries parent') errors

theorem Converted.named (hc : Converted n checked e' n')
    (h : ∀ parent, b.Has (checked.entries parent) → b.InSight library (.expr checked.id) scopes →
      b.Named library (checked.entries parent) errors)
    (hb : b.Has (e'.entries parent)) (hsight : b.InSight library (.expr e'.id) scopes) :
    b.Named library (e'.entries parent) errors := by
  cases hc with
  | keep => exact h parent hb hsight
  | widen =>
    rw [Expr.entries, has_append] at hb
    rw [Expr.entries]
    exact (h _ hb.1 (inSight_part hsight hb.1)).root rfl

theorem ElaboratesAll.named {es es' : List Expr} {q : ExprId} {p : NodeId} (h : ElaboratesAll env n es es' n' errors)
    (hes : ∀ e ∈ es, NamesExpr b library e) (hfresh : ∀ x ∈ Expr.entriesAll p es, x.Fresh)
    (henv : b.Mirrors env scopes) (hb : b.Has (Expr.entriesAll (.expr q) es'))
    (hsight : b.InSight library (.expr q) scopes) : b.Named library (Expr.entriesAll (.expr q) es') errors := by
  induction es generalizing n es' errors with
  | nil =>
    cases h
    exact named_nil nameless_nil
  | cons e es ih =>
    cases h with
    | cons he hc hown hrest =>
      rw [Expr.entriesAll, List.forall_mem_append] at hfresh
      rw [Expr.entriesAll, has_append] at hb
      rw [Expr.entriesAll]
      have hfirst := hc.named (fun _ hb hsight => hes e (by simp) he hfresh.1 henv hb hsight) hb.1
        (inSight_part hsight hb.1)
      exact (hfirst.report hown).append (ih hrest (fun e he => hes e (by simp [he])) hfresh.2 hb.2)

/-- The name at the root of a fresh expression is bound to nothing. -/
theorem fresh_root (h : ∀ x ∈ e.entries parent, x.Fresh) {ident : Ident} (hident : e.kind.ident? = some ident) :
    ident.decl = none := (h _ (entry_mem_entries e parent) : (e.entry parent).Fresh).2 ident hident

theorem names_binary {info : ExprInfo} {op : Operator} {left right : Expr} (ihl : NamesExpr b library left)
    (ihr : NamesExpr b library right) : NamesExpr b library (.binary info op left right) := by
  intro env n e' n' errors parent parent' scopes h hfresh henv hb hsight
  rw [Expr.entries, List.forall_mem_append, List.forall_mem_append] at hfresh
  cases h with
  | binary hl hr _ hu hwl hwr =>
    subst hu
    rw [Expr.entries, has_append, has_append] at hb
    rw [Expr.entries]
    have hleft := (hwl.converted int_of_unified.1).named (fun _ hb hsight => ihl hl hfresh.1.1 henv hb hsight) hb.1.1
      (inSight_part hsight hb.1.1)
    have hright := (hwr.converted int_of_unified.2).named (fun _ hb hsight => ihr hr hfresh.1.2 henv hb hsight)
      hb.1.2 (inSight_part hsight hb.1.2)
    exact (hleft.append hright).root rfl
  | binaryError hl hr hown =>
    rw [Expr.entries, has_append, has_append] at hb
    rw [Expr.entries]
    have hleft := ihl hl hfresh.1.1 henv hb.1.1 (inSight_part hsight hb.1.1)
    have hright := ihr hr hfresh.1.2 henv hb.1.2 (inSight_part hsight hb.1.2)
    exact ((hleft.append hright).report hown).root rfl

theorem names_assign {info : ExprInfo} {target value : Expr} (iht : NamesExpr b library target)
    (ihv : NamesExpr b library value) : NamesExpr b library (.assign info target value) := by
  intro env n e' n' errors parent parent' scopes h hfresh henv hb hsight
  rw [Expr.entries, List.forall_mem_append, List.forall_mem_append] at hfresh
  cases h with
  | assign ht hv hruling hw =>
    rw [Expr.entries, has_append, has_append] at hb
    rw [Expr.entries]
    have htarget := iht ht hfresh.1.1 henv hb.1.1 (inSight_part hsight hb.1.1)
    have hvalue := (hw.converted (assignRuling_accept hruling).1).named
      (fun _ hb hsight => ihv hv hfresh.1.2 henv hb hsight) hb.1.2 (inSight_part hsight hb.1.2)
    exact (htarget.append hvalue).root rfl
  | assignError hfirst ht hv hown =>
    rw [Expr.entries, has_append, has_append] at hb
    rw [Expr.entries]
    have htarget := iht ht hfresh.1.1 henv hb.1.1 (inSight_part hsight hb.1.1)
    have hvalue := ihv hv hfresh.1.2 henv hb.1.2 (inSight_part hsight hb.1.2)
    simpa using (named_nil hfirst).append (((htarget.append hvalue).report hown).root rfl)

theorem names_call {info : ExprInfo} {ident : Ident} {args : List Expr} (ih : ∀ e ∈ args, NamesExpr b library e) :
    NamesExpr b library (.call info ident args) := by
  intro env n e' n' errors parent parent' scopes h hfresh henv hb hsight
  have hident := fresh_root hfresh rfl
  rw [Expr.entries, List.forall_mem_append] at hfresh
  cases h with
  | @mainCall _ _ _ args' _ _ rest hmain hargs =>
    rw [Expr.entries, has_append] at hb
    rw [Expr.entries]
    have hall := hargs.named ih hfresh.1 henv hb.1 hsight
    have hcalls : ((Expr.call (info.typed .error) ident args').node parent').kind.callsMain = true := by
      simpa [Expr.node, Expr.kind, ExprKind.callsMain] using hmain
    have herror : ((Expr.call (info.typed .error) ident args').node parent').useError? =
        some ⟨.mainCalled, info.span⟩ := if_pos hmain
    -- the call is reported before its arguments, which stand before it
    refine (hall.append (named_use rfl ⟨scopes, hsight, ?_, fun _ => rfl⟩ ?_)).perm
      (List.perm_append_singleton (⟨.mainCalled, info.span⟩ : Error) rest).symm
    · rw [hcalls]
      exact hident
    · rw [herror]
      rfl
  | @call _ _ ident' _ args' t _ _ first rest own hmain huse hargs hown =>
    rw [Expr.entries, has_append] at hb
    rw [Expr.entries]
    obtain ⟨hspelling, hspan, hdecl, hnone, herrors⟩ := huse.resolved henv hident
    have hname : ident'.spelling ≠ "main" := by rwa [hspelling]
    have hall := hargs.named ih hfresh.1 henv hb.1 hsight
    have hcalls : ((Expr.call (info.typed t) ident' args').node parent').kind.callsMain = false := by
      simpa [Expr.node, Expr.kind, ExprKind.callsMain] using hname
    have hroot : b.Named library [(Expr.call (info.typed t) ident' args').entry parent'] first := by
      refine named_use rfl ⟨scopes, hsight, ?_, fun h => congrArg some (hnone h)⟩ ?_
      · rw [hcalls]
        exact hdecl
      · rw [herrors, ← hspan]
        simp [ExprNode.useError?, Expr.node, Expr.kind, hname]
    exact ((hall.append hroot).report hown).perm (List.perm_append_comm.append_right own)

theorem namesExpr (b : Arena) (library : List DeclId) (e : Expr) : NamesExpr b library e := by
  induction e using Expr.induct with
  | binary info op left right ihl ihr => exact names_binary ihl ihr
  | unary info op operand ih =>
    intro env n e' n' errors parent parent' scopes h hfresh henv hb hsight
    rw [Expr.entries, List.forall_mem_append] at hfresh
    cases h with
    | unary ho _ =>
      rw [Expr.entries, has_append] at hb
      rw [Expr.entries]
      exact (ih ho hfresh.1 henv hb.1 (inSight_part hsight hb.1)).root rfl
    | unaryError ho hown =>
      rw [Expr.entries, has_append] at hb
      rw [Expr.entries]
      exact ((ih ho hfresh.1 henv hb.1 (inSight_part hsight hb.1)).report hown).root rfl
  | assign info target value iht ihv => exact names_assign iht ihv
  | var info ident =>
    intro env n e' n' errors parent parent' scopes h hfresh henv hb hsight
    cases h with
    | var huse =>
      obtain ⟨-, -, hdecl, hnone, herrors⟩ := huse.resolved henv (fresh_root hfresh rfl)
      exact named_use rfl ⟨scopes, hsight, hdecl, fun h => congrArg some (hnone h)⟩ herrors
  | arrayAccess info ident index ih =>
    intro env n e' n' errors parent parent' scopes h hfresh henv hb hsight
    have hident := fresh_root hfresh rfl
    rw [Expr.entries, List.forall_mem_append] at hfresh
    cases h with
    | arrayAccess hi huse =>
      rw [Expr.entries, has_append] at hb
      rw [Expr.entries]
      obtain ⟨-, -, hdecl, hnone, herrors⟩ := huse.resolved henv hident
      exact (ih hi hfresh.1 henv hb.1 (inSight_part hsight hb.1)).append
        (named_use rfl ⟨scopes, hsight, hdecl, fun h => congrArg some (hnone h)⟩ herrors)
  | call info ident args ih => exact names_call ih
  | initList info elements ih =>
    intro env n e' n' errors parent parent' scopes h hfresh henv hb hsight
    rw [Expr.entries, List.forall_mem_append] at hfresh
    cases h with
    | initList helements =>
      rw [Expr.entries, has_append] at hb
      rw [Expr.entries]
      exact (helements.named ih hfresh.1 henv hb.1 hsight).root rfl
  | literal info value =>
    intro env n e' n' errors parent parent' scopes h hfresh henv hb hsight
    cases h
    exact named_expr rfl
  | intToFloat info operand ih =>
    intro env n e' n' errors parent parent' scopes h hfresh henv hb hsight
    rw [Expr.entries, List.forall_mem_append] at hfresh
    cases h with
    | intToFloat ho =>
      rw [Expr.entries, has_append] at hb
      rw [Expr.entries]
      exact (ih ho hfresh.1 henv hb.1 (inSight_part hsight hb.1)).root rfl

theorem parentOf_expr (hb : b.Has (e.entries parent)) : b.parentOf (.expr e.id) = some parent :=
  (hb _ (entry_mem_entries e parent) : b.Holds (e.entry parent)).parentOf

/-- An expression that is checked as a part of a node, and perhaps converted. -/
theorem Elaborates.named {m : Nat} {p q : NodeId} (h : Elaborates env n e checked m errors)
    (hc : Converted m checked e' n') (hfresh : ∀ x ∈ e.entries p, x.Fresh) (hb : b.Has (e'.entries q))
    (hopen : b.OpenInside library q env) : b.Named library (e'.entries q) errors := by
  obtain ⟨scopes, hsight, henv⟩ := hopen (.expr e'.id) rfl (parentOf_expr hb)
  exact hc.named (fun _ hb hsight => namesExpr b library _ h hfresh henv hb hsight) hb hsight

theorem ElaboratesOption.named {o o' : Option Expr} {p q : NodeId} (h : ElaboratesOption env n o o' n' errors)
    (hfresh : ∀ x ∈ Expr.entriesOption p o, x.Fresh) (hb : b.Has (Expr.entriesOption q o'))
    (hopen : b.OpenInside library q env) : b.Named library (Expr.entriesOption q o') errors := by
  cases h with
  | none hown => exact named_nil hown
  | some he hc hown => exact (he.named hc hfresh hb hopen).report hown

end Typing

end VCLang
