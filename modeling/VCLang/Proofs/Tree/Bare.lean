/-
Bare trees: what a tree says apart from the places in the text, the numbers of its nodes and what a check adds.

A bare tree fixes which nodes there are and in which order they are listed, so that fresh nodes that are numbered
in this order are the same for two trees with one bare tree, spans apart. The proof goes along the listing: the
nodes of two trees match if they stand in the same lists, one by one, and, once their numbers are the same, say
the same.
-/
import VCLang.Proofs.Tree.Forest
namespace VCLang

/-! ## Bare trees -/

def Ident.bare (i : Ident) : Ident := .unbound i.spelling default

def Operator.bare (op : Operator) : Operator := ⟨op.spelling, default⟩

namespace Expr

mutual

def bare : Expr → Expr
  | binary _ op left right => binary default op.bare (bare left) (bare right)
  | unary _ op operand => unary default op.bare (bare operand)
  | assign _ target value => assign default (bare target) (bare value)
  | var _ ident => var default ident.bare
  | arrayAccess _ ident index => arrayAccess default ident.bare (bare index)
  | call _ ident args => call default ident.bare (bareAll args)
  | initList _ elements => initList default (bareAll elements)
  | literal _ value => literal default value
  | intToFloat _ operand => intToFloat default (bare operand)

def bareAll : List Expr → List Expr
  | [] => []
  | e :: es => bare e :: bareAll es

end

theorem bareAll_eq (es : List Expr) : bareAll es = es.map bare := by
  induction es with
  | nil => rfl
  | cons e es ih => rw [bareAll, ih, List.map_cons]

end Expr

def VarDecl.bare (d : VarDecl) : VarDecl := ⟨default, d.ident.bare, d.ty, default, d.isGlobal, d.init.map Expr.bare⟩

namespace Stmt

mutual

def bare : Stmt → Stmt
  | compound _ decls stmts => compound default (decls.map VarDecl.bare) (bareAll stmts)
  | ifThen _ cond thenBranch => ifThen default cond.bare (bare thenBranch)
  | ifElse _ cond thenBranch elseBranch => ifElse default cond.bare (bare thenBranch) (bare elseBranch)
  | whileStmt _ cond body => whileStmt default cond.bare (bare body)
  | forStmt _ init cond update body =>
    forStmt default (init.map Expr.bare) (cond.map Expr.bare) (update.map Expr.bare) (bare body)
  | breakStmt _ => breakStmt default
  | continueStmt _ => continueStmt default
  | returnStmt _ value => returnStmt default (value.map Expr.bare)
  | exprStmt _ expr => exprStmt default expr.bare
  | emptyStmt _ => emptyStmt default

def bareAll : List Stmt → List Stmt
  | [] => []
  | s :: ss => bare s :: bareAll ss

end

theorem bareAll_eq (ss : List Stmt) : bareAll ss = ss.map bare := by
  induction ss with
  | nil => rfl
  | cons s ss ih => rw [bareAll, ih, List.map_cons]

end Stmt

def Param.bare (p : Param) : Param := ⟨default, p.ident.bare, p.ty, default⟩

def Function.bare (f : Function) : Function where
  id := default
  ident := f.ident.bare
  ty := f.ty
  span := default
  params := f.params.map Param.bare
  body := ⟨default, f.body.decls.map VarDecl.bare, f.body.stmts.map Stmt.bare⟩
  hasReturn := false

def TopDecl.bare : TopDecl → TopDecl
  | func f => func f.bare
  | var d => var d.bare

/-! ## Nodes without spans -/

def Ident.unspanned (i : Ident) : Ident := { i with span := default }

def Operator.unspanned (op : Operator) : Operator := { op with span := default }

def ExprKind.unspanned : ExprKind → ExprKind
  | binary op left right => binary op.unspanned left right
  | unary op operand => unary op.unspanned operand
  | var ident => var ident.unspanned
  | arrayAccess ident index => arrayAccess ident.unspanned index
  | call ident args => call ident.unspanned args
  | k => k

def ExprNode.unspanned (n : ExprNode) : ExprNode := { n with kind := n.kind.unspanned, span := default }

def StmtNode.unspanned (n : StmtNode) : StmtNode := { n with span := default }

def DeclNode.unspanned (n : DeclNode) : DeclNode := { n with ident := n.ident.unspanned, span := default }

/-- A flat form without the places of its nodes. -/
def Arena.unspanned (a : Arena) : Arena where
  exprs := a.exprs.map ExprNode.unspanned
  stmts := a.stmts.map StmtNode.unspanned
  decls := a.decls.map DeclNode.unspanned
  program := a.program
  span := default

namespace Entry

def unspanned : Entry → Entry
  | expr id node => expr id node.unspanned
  | stmt id node => stmt id node.unspanned
  | decl id node => decl id node.unspanned

/-- Which of the three lists of nodes a node stands in. -/
def list : Entry → Fin 3
  | expr _ _ => 0
  | stmt _ _ => 1
  | decl _ _ => 2

end Entry

/-! ## Matching nodes -/

/-- Fresh nodes have the same numbers, one by one. -/
structure Paired (es es' : List Entry) : Prop where
  ids : es.map Entry.id = es'.map Entry.id
  fresh : ∀ x ∈ es, x.Fresh
  fresh' : ∀ x ∈ es', x.Fresh

theorem Paired.of_append {es es' fs fs' : List Entry} (h : Paired (es ++ fs) (es' ++ fs'))
    (hlength : es.length = es'.length) : Paired es es' ∧ Paired fs fs' := by
  have hids := h.ids
  rw [List.map_append, List.map_append] at hids
  obtain ⟨hes, hfs⟩ := List.append_inj hids (by rw [List.length_map, List.length_map, hlength])
  obtain ⟨hf, hg⟩ := List.forall_mem_append.1 h.fresh
  obtain ⟨hf', hg'⟩ := List.forall_mem_append.1 h.fresh'
  exact ⟨⟨hes, hf, hf'⟩, ⟨hfs, hg, hg'⟩⟩

/-- Nodes stand in the same lists, one by one. If they are parts of one node and have the same numbers, then
their roots have the same numbers and the nodes say the same, spans apart. -/
structure Match {ι : Type} (parent parent' : NodeId) (es es' : List Entry) (root root' : ι) : Prop where
  lists : es.map Entry.list = es'.map Entry.list
  same : parent = parent' → Paired es es' → root = root' ∧ es.map Entry.unspanned = es'.map Entry.unspanned

namespace Match

variable {ι κ : Type} {parent parent' : NodeId} {es es' fs fs' : List Entry} {i i' : ι} {k k' : κ}

theorem length (h : Match parent parent' es es' i i') : es.length = es'.length := by
  have hlists := congrArg List.length h.lists
  rwa [List.length_map, List.length_map] at hlists

theorem nil (i : ι) : Match parent parent' [] [] i i := ⟨rfl, fun _ _ => ⟨rfl, rfl⟩⟩

theorem append (h : Match parent parent' es es' i i') (h' : Match parent parent' fs fs' k k') :
    Match parent parent' (es ++ fs) (es' ++ fs') (i, k) (i', k') := by
  constructor
  · rw [List.map_append, List.map_append, h.lists, h'.lists]
  · intro hparent hpaired
    obtain ⟨hes, hfs⟩ := hpaired.of_append h.length
    obtain ⟨hi, hsame⟩ := h.same hparent hes
    obtain ⟨hk, hsame'⟩ := h'.same hparent hfs
    exact ⟨by rw [hi, hk], by rw [List.map_append, List.map_append, hsame, hsame']⟩

theorem map (h : Match parent parent' es es' i i') (f : ι → κ) : Match parent parent' es es' (f i) (f i') :=
  ⟨h.lists, fun hparent hpaired => ⟨congrArg f (h.same hparent hpaired).1, (h.same hparent hpaired).2⟩⟩

/-- A node behind its parts. -/
theorem node (x x' : Entry) (h : Match x.id x'.id es es' k k') (hlist : x.list = x'.list)
    (hroot : x.id = x'.id → i = i')
    (hsame : k = k' → parent = parent' → x.id = x'.id → x.Fresh → x'.Fresh → x.unspanned = x'.unspanned) :
    Match parent parent' (es ++ [x]) (es' ++ [x']) i i' := by
  constructor
  · rw [List.map_append, List.map_append, h.lists, List.map_singleton, List.map_singleton, hlist]
  · intro hparent hpaired
    obtain ⟨hes, hx⟩ := hpaired.of_append h.length
    have hid : x.id = x'.id := List.singleton_inj.1 hx.ids
    obtain ⟨hk, hparts⟩ := h.same hid hes
    have hx' := hsame hk hparent hid (hx.fresh x (by simp)) (hx.fresh' x' (by simp))
    exact ⟨hroot hid, by rw [List.map_append, List.map_append, hparts, List.map_singleton, List.map_singleton, hx']⟩

/-- Trees that match one by one, in lists with the same bare trees. -/
theorem flatMap {α β : Type} {bare : α → β} {f f' : α → List Entry} {id : α → ι} {xs xs' : List α}
    (h : ∀ x ∈ xs, ∀ x', bare x = bare x' → Match parent parent' (f x) (f' x') (id x) (id x'))
    (hbare : xs.map bare = xs'.map bare) :
    Match parent parent' (xs.flatMap f) (xs'.flatMap f') (xs.map id) (xs'.map id) := by
  induction xs generalizing xs' with
  | nil =>
    obtain rfl : xs' = [] := List.map_eq_nil_iff.1 hbare.symm
    exact nil []
  | cons x xs ih =>
    cases xs' with
    | nil => cases hbare
    | cons x' xs' =>
      obtain ⟨hx, hxs⟩ := List.cons.inj hbare
      exact ((h x (by simp) x' hx).append (ih (fun y hy => h y (by simp [hy])) hxs)).map fun r => r.1 :: r.2

end Match

/-! ## Trees with one bare tree -/

theorem Ident.unspanned_eq {i i' : Ident} (h : i.bare = i'.bare) (hi : i.decl = none) (hi' : i'.decl = none) :
    i.unspanned = i'.unspanned := by
  have hspelling := (Ident.mk.inj h).1
  rw [Ident.unspanned, Ident.unspanned, hspelling, hi, hi']

theorem Operator.unspanned_eq {op op' : Operator} (h : op.bare = op'.bare) : op.unspanned = op'.unspanned := h

/-- The root of an expression behind its parts. -/
theorem Match.expr {κ : Type} {parent parent' : NodeId} {es es' : List Entry} {k k' : κ} {e e' : Expr}
    (h : Match (.expr e.id) (.expr e'.id) es es' k k')
    (hkind : k = k' → (∀ i ∈ e.kind.ident?, i.decl = none) → (∀ i ∈ e'.kind.ident?, i.decl = none) →
      e.kind.unspanned = e'.kind.unspanned) :
    Match parent parent' (es ++ [e.entry parent]) (es' ++ [e'.entry parent']) e.id e'.id := by
  refine Match.node (e.entry parent) (e'.entry parent') h rfl (fun hid => NodeId.expr.inj hid) ?_
  intro hk hparent hid hfresh hfresh'
  have hty : e.info.ty = e'.info.ty := hfresh.1.trans hfresh'.1.symm
  have hkind' := hkind hk hfresh.2 hfresh'.2
  simp only [Expr.entry, Entry.unspanned, Expr.node, ExprNode.unspanned, hparent, hty, hkind']
  rw [NodeId.expr.inj hid]

theorem Expr.matches (e : Expr) {e' : Expr} (parent parent' : NodeId) (h : e.bare = e'.bare) :
    Match parent parent' (e.entries parent) (e'.entries parent') e.id e'.id := by
  induction e using Expr.induct generalizing e' parent parent' with
  | binary info op left right ihl ihr =>
    cases e' with
    | binary info' op' left' right' =>
      obtain ⟨-, hop, hl, hr⟩ := Expr.binary.inj h
      rw [Expr.entries, Expr.entries]
      refine Match.expr ((ihl _ _ hl).append (ihr _ _ hr)) fun hk _ _ => ?_
      obtain ⟨hleft, hright⟩ := Prod.mk.inj hk
      simp only [Expr.kind, ExprKind.unspanned, hleft, hright, Operator.unspanned_eq hop]
    | _ => cases h
  | unary info op operand ih =>
    cases e' with
    | unary info' op' operand' =>
      obtain ⟨-, hop, ho⟩ := Expr.unary.inj h
      rw [Expr.entries, Expr.entries]
      refine Match.expr (ih _ _ ho) fun hk _ _ => ?_
      simp only [Expr.kind, ExprKind.unspanned, hk, Operator.unspanned_eq hop]
    | _ => cases h
  | assign info target value iht ihv =>
    cases e' with
    | assign info' target' value' =>
      obtain ⟨-, ht, hv⟩ := Expr.assign.inj h
      rw [Expr.entries, Expr.entries]
      refine Match.expr ((iht _ _ ht).append (ihv _ _ hv)) fun hk _ _ => ?_
      obtain ⟨htarget, hvalue⟩ := Prod.mk.inj hk
      simp only [Expr.kind, htarget, hvalue]
    | _ => cases h
  | var info ident =>
    cases e' with
    | var info' ident' =>
      have hident := (Expr.var.inj h).2
      refine Match.expr (Match.nil ()) fun _ hf hf' => ?_
      exact congrArg ExprKind.var (Ident.unspanned_eq hident (hf ident rfl) (hf' ident' rfl))
    | _ => cases h
  | arrayAccess info ident index ih =>
    cases e' with
    | arrayAccess info' ident' index' =>
      obtain ⟨-, hident, hi⟩ := Expr.arrayAccess.inj h
      rw [Expr.entries, Expr.entries]
      refine Match.expr (ih _ _ hi) fun hk hf hf' => ?_
      simp only [Expr.kind, ExprKind.unspanned, hk, Ident.unspanned_eq hident (hf ident rfl) (hf' ident' rfl)]
    | _ => cases h
  | call info ident args ih =>
    cases e' with
    | call info' ident' args' =>
      obtain ⟨-, hident, ha⟩ := Expr.call.inj h
      rw [Expr.bareAll_eq, Expr.bareAll_eq] at ha
      rw [Expr.entries, Expr.entries, Expr.entriesAll_eq, Expr.entriesAll_eq]
      refine Match.expr (Match.flatMap (fun a hm a' hb => ih a hm _ _ hb) ha) fun hk hf hf' => ?_
      simp only [Expr.kind, ExprKind.unspanned, hk, Ident.unspanned_eq hident (hf ident rfl) (hf' ident' rfl)]
    | _ => cases h
  | initList info elements ih =>
    cases e' with
    | initList info' elements' =>
      have he := (Expr.initList.inj h).2
      rw [Expr.bareAll_eq, Expr.bareAll_eq] at he
      rw [Expr.entries, Expr.entries, Expr.entriesAll_eq, Expr.entriesAll_eq]
      refine Match.expr (Match.flatMap (fun a hm a' hb => ih a hm _ _ hb) he) fun hk _ _ => ?_
      simp only [Expr.kind, hk]
    | _ => cases h
  | literal info value =>
    cases e' with
    | literal info' value' =>
      obtain ⟨-, rfl⟩ := Expr.literal.inj h
      exact Match.expr (Match.nil ()) fun _ _ _ => rfl
    | _ => cases h
  | intToFloat info operand ih =>
    cases e' with
    | intToFloat info' operand' =>
      have ho := (Expr.intToFloat.inj h).2
      rw [Expr.entries, Expr.entries]
      refine Match.expr (ih _ _ ho) fun hk _ _ => ?_
      simp only [Expr.kind, hk]
    | _ => cases h

theorem Expr.matchesOption {o o' : Option Expr} (parent parent' : NodeId) (h : o.map bare = o'.map bare) :
    Match parent parent' (entriesOption parent o) (entriesOption parent' o') (o.map id) (o'.map id) := by
  cases o <;> cases o'
  · exact .nil none
  · cases h
  · cases h
  · exact (Expr.matches _ parent parent' (Option.some.inj h)).map some

/-- A declaration behind its parts. -/
theorem Match.decl {κ : Type} {parent parent' : NodeId} {es es' : List Entry} {k k' : κ} {id id' : DeclId}
    {kind kind' : DeclKind} {ident ident' : Ident} {ty ty' : Ty} {span span' : Span} {q q' : Option NodeId}
    (h : Match (.decl id) (.decl id') es es' k k')
    (hkind : k = k' → kind.hasReturn = false → kind'.hasReturn = false → kind = kind')
    (hident : ident.bare = ident'.bare) (hty : ty = ty') (hparent : parent = parent' → q = q') :
    Match parent parent' (es ++ [.decl id ⟨kind, ident, ty, span, q⟩])
      (es' ++ [.decl id' ⟨kind', ident', ty', span', q'⟩]) id id' := by
  let x : Entry := .decl id ⟨kind, ident, ty, span, q⟩
  let x' : Entry := .decl id' ⟨kind', ident', ty', span', q'⟩
  refine Match.node x x' h rfl (fun hid => NodeId.decl.inj hid) ?_
  intro hk hp hid hfresh hfresh'
  obtain rfl := NodeId.decl.inj hid
  have hident' := Ident.unspanned_eq hident hfresh.1 hfresh'.1
  simp only [x, x', Entry.unspanned, DeclNode.unspanned, hident', hty, hparent hp, hkind hk hfresh.2 hfresh'.2]

theorem VarDecl.matches {d d' : VarDecl} (parent parent' : NodeId) (h : d.bare = d'.bare) :
    Match parent parent' (d.entries parent) (d'.entries parent') d.id d'.id := by
  obtain ⟨-, hident, hty, -, hglobal, hinit⟩ := VarDecl.mk.inj h
  refine Match.decl (Expr.matchesOption _ _ hinit) (fun hk _ _ => ?_) hident hty (congrArg some)
  rw [VarDecl.kind, VarDecl.kind, hglobal, hk]

/-- The root of a statement behind its parts. -/
theorem Match.stmt {κ : Type} {parent parent' : NodeId} {es es' : List Entry} {k k' : κ} {s s' : Stmt}
    (h : Match (.stmt s.id) (.stmt s'.id) es es' k k') (hkind : k = k' → s.kind = s'.kind) :
    Match parent parent' (es ++ [s.entry parent]) (es' ++ [s'.entry parent']) s.id s'.id := by
  refine Match.node (s.entry parent) (s'.entry parent') h rfl (fun hid => NodeId.stmt.inj hid) ?_
  intro hk hparent hid _ _
  simp only [Stmt.entry, Entry.unspanned, StmtNode.unspanned, hparent, hkind hk]
  rw [NodeId.stmt.inj hid]

theorem Stmt.matches (s : Stmt) {s' : Stmt} (parent parent' : NodeId) (h : s.bare = s'.bare) :
    Match parent parent' (s.entries parent) (s'.entries parent') s.id s'.id := by
  induction s using Stmt.induct generalizing s' parent parent' with
  | compound info decls stmts ih =>
    cases s' with
    | compound info' decls' stmts' =>
      obtain ⟨-, hd, hs⟩ := Stmt.compound.inj h
      rw [Stmt.bareAll_eq, Stmt.bareAll_eq] at hs
      rw [Stmt.entries, Stmt.entries, Stmt.entriesAll_eq, Stmt.entriesAll_eq]
      have hdecls : Match (.stmt info.id) (.stmt info'.id) _ _ _ _ :=
        Match.flatMap (fun d _ d' hb => VarDecl.matches _ _ hb) hd
      have hstmts : Match (.stmt info.id) (.stmt info'.id) _ _ _ _ :=
        Match.flatMap (fun s hm s' hb => ih s hm _ _ hb) hs
      refine Match.stmt (hdecls.append hstmts) fun hk => ?_
      obtain ⟨hkd, hks⟩ := Prod.mk.inj hk
      simp only [Stmt.kind, hkd, hks]
    | _ => cases h
  | ifThen info cond thenBranch ih =>
    cases s' with
    | ifThen info' cond' thenBranch' =>
      obtain ⟨-, hc, ht⟩ := Stmt.ifThen.inj h
      rw [Stmt.entries, Stmt.entries]
      refine Match.stmt ((Expr.matches _ _ _ hc).append (ih _ _ ht)) fun hk => ?_
      obtain ⟨hcond, hthen⟩ := Prod.mk.inj hk
      simp only [Stmt.kind, hcond, hthen]
    | _ => cases h
  | ifElse info cond thenBranch elseBranch ihThen ihElse =>
    cases s' with
    | ifElse info' cond' thenBranch' elseBranch' =>
      obtain ⟨-, hc, ht, he⟩ := Stmt.ifElse.inj h
      rw [Stmt.entries, Stmt.entries]
      refine Match.stmt (((Expr.matches _ _ _ hc).append (ihThen _ _ ht)).append (ihElse _ _ he)) fun hk => ?_
      obtain ⟨hk, helse⟩ := Prod.mk.inj hk
      obtain ⟨hcond, hthen⟩ := Prod.mk.inj hk
      simp only [Stmt.kind, hcond, hthen, helse]
    | _ => cases h
  | whileStmt info cond body ih =>
    cases s' with
    | whileStmt info' cond' body' =>
      obtain ⟨-, hc, hb⟩ := Stmt.whileStmt.inj h
      rw [Stmt.entries, Stmt.entries]
      refine Match.stmt ((Expr.matches _ _ _ hc).append (ih _ _ hb)) fun hk => ?_
      obtain ⟨hcond, hbody⟩ := Prod.mk.inj hk
      simp only [Stmt.kind, hcond, hbody]
    | _ => cases h
  | forStmt info init cond update body ih =>
    cases s' with
    | forStmt info' init' cond' update' body' =>
      obtain ⟨-, hi, hc, hu, hb⟩ := Stmt.forStmt.inj h
      rw [Stmt.entries, Stmt.entries]
      refine Match.stmt ((((Expr.matchesOption _ _ hi).append (Expr.matchesOption _ _ hc)).append
        (Expr.matchesOption _ _ hu)).append (ih _ _ hb)) fun hk => ?_
      obtain ⟨hk, hbody⟩ := Prod.mk.inj hk
      obtain ⟨hk, hupdate⟩ := Prod.mk.inj hk
      obtain ⟨hinit, hcond⟩ := Prod.mk.inj hk
      simp only [Stmt.kind, hinit, hcond, hupdate, hbody]
    | _ => cases h
  | breakStmt info =>
    cases s' with
    | breakStmt info' => exact Match.stmt (Match.nil ()) fun _ => rfl
    | _ => cases h
  | continueStmt info =>
    cases s' with
    | continueStmt info' => exact Match.stmt (Match.nil ()) fun _ => rfl
    | _ => cases h
  | returnStmt info value =>
    cases s' with
    | returnStmt info' value' =>
      have hv := (Stmt.returnStmt.inj h).2
      rw [Stmt.entries, Stmt.entries]
      refine Match.stmt (Expr.matchesOption _ _ hv) fun hk => ?_
      simp only [Stmt.kind, hk]
    | _ => cases h
  | exprStmt info expr =>
    cases s' with
    | exprStmt info' expr' =>
      have he := (Stmt.exprStmt.inj h).2
      rw [Stmt.entries, Stmt.entries]
      refine Match.stmt (Expr.matches _ _ _ he) fun hk => ?_
      simp only [Stmt.kind, hk]
    | _ => cases h
  | emptyStmt info =>
    cases s' with
    | emptyStmt info' => exact Match.stmt (Match.nil ()) fun _ => rfl
    | _ => cases h

theorem Param.matches {p p' : Param} (parent parent' : NodeId) (h : p.bare = p'.bare) :
    Match parent parent' [p.entry parent] [p'.entry parent'] p.id p'.id := by
  obtain ⟨-, hident, hty, -⟩ := Param.mk.inj h
  exact Match.decl (Match.nil ()) (fun _ _ _ => rfl) hident hty (congrArg some)

theorem Function.matches {f f' : Function} (h : f.bare = f'.bare) :
    Match .program .program f.entries f'.entries f.id f'.id := by
  obtain ⟨hproto, hbody, -⟩ := Function.mk.inj h
  obtain ⟨-, hident, hty, -, hparams⟩ := Prototype.mk.inj hproto
  have hblock : f.body.toStmt.bare = f'.body.toStmt.bare := by
    obtain ⟨-, hdecls, hstmts⟩ := Block.mk.inj hbody
    rw [Block.toStmt, Block.toStmt, Stmt.bare, Stmt.bare, Stmt.bareAll_eq, Stmt.bareAll_eq, hdecls, hstmts]
  have hparams' : Match (.decl f.id) (.decl f'.id) _ _ _ _ :=
    Match.flatMap (fun p _ p' hb => Param.matches _ _ hb) hparams
  rw [Function.entries, Function.entries, List.map_eq_flatMap (f := Param.entry (.decl f.id)),
    List.map_eq_flatMap (f := Param.entry (.decl f'.id))]
  refine Match.decl (hparams'.append (Stmt.matches _ _ _ hblock)) (fun hk hreturn hreturn' => ?_) hident hty
    fun _ => rfl
  obtain ⟨hids, hid⟩ := Prod.mk.inj hk
  have hid' : f.body.id = f'.body.id := hid
  rw [hids, hid', show f.hasReturn = false from hreturn, show f'.hasReturn = false from hreturn']

theorem TopDecl.matches {d d' : TopDecl} (h : d.bare = d'.bare) :
    Match .program .program d.entries d'.entries d.id d'.id := by
  cases d <;> cases d'
  · exact Function.matches (TopDecl.func.inj h)
  · cases h
  · cases h
  · exact VarDecl.matches _ _ (TopDecl.var.inj h)

/-! ## Flat forms -/

/-- Two flat forms have as many nodes of each kind. -/
structure Arena.SameSize (a a' : Arena) : Prop where
  exprs : a.exprs.size = a'.exprs.size
  stmts : a.stmts.size = a'.stmts.size
  decls : a.decls.size = a'.decls.size

theorem Arena.SameSize.pushEntry {a a' : Arena} {x x' : Entry} (h : a.SameSize a') (hlist : x.list = x'.list) :
    (a.pushEntry x).SameSize (a'.pushEntry x') := by
  have hadopt (b : Arena) := b.adopt_sizes
  cases x <;> cases x' <;> first
    | (simp [Entry.list] at hlist; done)
    | constructor <;>
        simp [Arena.pushEntry, pushExpr, pushStmt, pushDecl, hadopt, h.exprs, h.stmts, h.decls]

theorem Arena.SameSize.id_eq {a a' : Arena} {x x' : Entry} (h : a.SameSize a') (hlist : x.list = x'.list)
    (hx : a.IsNext x) (hx' : a'.IsNext x') : x.id = x'.id := by
  cases x <;> cases x' <;> first
    | (simp [Entry.list] at hlist; done)
    | simp_all [IsNext, Entry.id, h.exprs, h.stmts, h.decls]

/-- Nodes that are added to flat forms of one size, to the same lists one by one, get the same numbers. -/
theorem Laid.ids_eq {a b a' b' : Arena} {es es' : List Entry} (h : Laid a b es) (h' : Laid a' b' es')
    (hsize : a.SameSize a') (hlists : es.map Entry.list = es'.map Entry.list) :
    es.map Entry.id = es'.map Entry.id := by
  induction h generalizing a' es' with
  | nil =>
    rw [List.map_eq_nil_iff.1 hlists.symm]
  | push hnext _ _ ih =>
    cases h' with
    | nil => cases hlists
    | push hnext' _ hrest' =>
      obtain ⟨hlist, hlists⟩ := List.cons.inj hlists
      rw [List.map_cons, List.map_cons, hsize.id_eq hlist hnext hnext', ih hrest' (hsize.pushEntry hlist) hlists]

/-- Replacing every value is replacing the values before they are put in place. -/
theorem map_place {α : Type} [Inhabited α] {f : α → α} (hf : f default = default) (items : List (Nat × α)) :
    (place items).map f = place (items.map (Prod.map id f)) := by
  have key (xs : List (Nat × α)) (a : Array α) :
      (xs.foldl (fun a item => a.setIfInBounds item.1 item.2) a).map f =
        (xs.map (Prod.map id f)).foldl (fun a item => a.setIfInBounds item.1 item.2) (a.map f) := by
    induction xs generalizing a with
    | nil => rfl
    | cons x xs ih => rw [List.foldl_cons, ih, List.map_cons, List.foldl_cons, Array.map_setIfInBounds]; rfl
  rw [place, key, place, List.length_map, Array.map_replicate, hf]

/-- The flat form of a tree without places is made of its nodes without places. -/
theorem Program.arena_unspanned (p : Program) : p.arena.unspanned =
    { exprs := place ((p.entries.map Entry.unspanned).filterMap Entry.expr?)
      stmts := place ((p.entries.map Entry.unspanned).filterMap Entry.stmt?)
      decls := place ((p.entries.map Entry.unspanned).filterMap Entry.decl?)
      program := p.decls.map TopDecl.id
      span := default } := by
  have hexpr (x : Entry) : (x.expr?).map (Prod.map id ExprNode.unspanned) = x.unspanned.expr? := by cases x <;> rfl
  have hstmt (x : Entry) : (x.stmt?).map (Prod.map id StmtNode.unspanned) = x.unspanned.stmt? := by cases x <;> rfl
  have hdecl (x : Entry) : (x.decl?).map (Prod.map id DeclNode.unspanned) = x.unspanned.decl? := by cases x <;> rfl
  rw [Arena.unspanned, Program.arena, map_place rfl, map_place rfl, map_place rfl]
  simp only [List.map_filterMap, List.filterMap_map, Function.comp_def, hexpr, hstmt, hdecl]

/-- Fresh programs that are numbered in order and have one bare tree have one flat form, spans apart. -/
theorem Program.arena_unspanned_eq {p p' : Program} {a a' : Arena} (hp : Laid .empty a p.entries)
    (hp' : Laid .empty a' p'.entries) (hplain : p.Plain) (hplain' : p'.Plain)
    (h : p.decls.map TopDecl.bare = p'.decls.map TopDecl.bare) : p.arena.unspanned = p'.arena.unspanned := by
  have hmatch : Match .program .program p.entries p'.entries (p.decls.map TopDecl.id) (p'.decls.map TopDecl.id) := by
    rw [hplain.entries_eq, hplain'.entries_eq]
    exact Match.flatMap (fun d _ d' hb => TopDecl.matches hb) h
  -- the numbers were given out in order, so that they depend on the lists of the nodes alone
  have hids := hp.ids_eq hp' ⟨rfl, rfl, rfl⟩ hmatch.lists
  obtain ⟨hroots, hnodes⟩ := hmatch.same rfl ⟨hids, hp.fresh, hp'.fresh⟩
  rw [p.arena_unspanned, p'.arena_unspanned, hnodes, hroots]

end VCLang
