/-
The listed nodes of a tree as a forest: behind the nodes under it stands the node that has their roots for
its parts, and that they have for what they are part of.
-/
import Mathlib.Data.List.Nodup
import VCLang.Proofs.Tree.Numbering
import VCLang.Proofs.Tree.Source
namespace VCLang

namespace Entry

/-- The number of a node. -/
def id : Entry → NodeId
  | expr id _ => .expr id
  | stmt id _ => .stmt id
  | decl id _ => .decl id

/-- What a node is part of. -/
def parent : Entry → Option NodeId
  | expr _ node => node.parent
  | stmt _ node => node.parent
  | decl _ node => node.parent

/-- The parts of a node, in order. -/
def children : Entry → List NodeId
  | expr _ node => node.kind.children.map .expr
  | stmt _ node => node.kind.children
  | decl _ node => node.kind.children

end Entry

/-- Nodes that are listed as the trees under one parent, each with a root: a node stands behind all nodes
under it. -/
inductive Forest : Option NodeId → List NodeId → List Entry → Prop
  | nil {parent : Option NodeId} : Forest parent [] []
  | append {parent : Option NodeId} {xs ys : List NodeId} {es fs : List Entry} : Forest parent xs es →
    Forest parent ys fs → Forest parent (xs ++ ys) (es ++ fs)
  | node {x : Entry} {es : List Entry} : Forest (some x.id) x.children es → Forest x.parent [x.id] (es ++ [x])

namespace Forest

variable {parent : Option NodeId} {roots : List NodeId} {es : List Entry}

theorem leaf {x : Entry} (h : x.children = []) : Forest x.parent [x.id] [x] := by
  have hnil : Forest (some x.id) x.children [] := by
    rw [h]
    exact .nil
  exact .node hnil

theorem flatMap {α : Type} (root : α → NodeId) {f : α → List Entry} {xs : List α}
    (h : ∀ x ∈ xs, Forest parent [root x] (f x)) : Forest parent (xs.map root) (xs.flatMap f) := by
  induction xs with
  | nil => exact .nil
  | cons x xs ih => exact (h x (by simp)).append (ih fun x hx => h x (by simp [hx]))

/-! ## Roots and parts -/

/-- Every root is a node under the parent. -/
theorem exists_root (h : Forest parent roots es) : ∀ r ∈ roots, ∃ x ∈ es, x.id = r ∧ x.parent = parent := by
  induction h with
  | nil => simp
  | append _ _ ih ih' =>
    intro r hr
    rcases List.mem_append.1 hr with hr | hr
    · obtain ⟨x, hx, hxr⟩ := ih r hr
      exact ⟨x, List.mem_append_left _ hx, hxr⟩
    · obtain ⟨x, hx, hxr⟩ := ih' r hr
      exact ⟨x, List.mem_append_right _ hx, hxr⟩
  | @node x =>
    intro r hr
    rw [List.mem_singleton] at hr
    exact ⟨x, by simp, hr.symm, rfl⟩

/-- Every part of a node is a node that is part of it. -/
theorem exists_child (h : Forest parent roots es) :
    ∀ y ∈ es, ∀ c ∈ y.children, ∃ x ∈ es, x.id = c ∧ x.parent = some y.id := by
  induction h with
  | nil => simp
  | append _ _ ih ih' =>
    intro y hy c hc
    rcases List.mem_append.1 hy with hy | hy
    · obtain ⟨x, hx, hxc⟩ := ih y hy c hc
      exact ⟨x, List.mem_append_left _ hx, hxc⟩
    · obtain ⟨x, hx, hxc⟩ := ih' y hy c hc
      exact ⟨x, List.mem_append_right _ hx, hxc⟩
  | node hbelow ih =>
    intro y hy c hc
    rcases List.mem_append.1 hy with hy | hy
    · obtain ⟨x, hx, hxc⟩ := ih y hy c hc
      exact ⟨x, List.mem_append_left _ hx, hxc⟩
    · rw [List.mem_singleton] at hy
      subst hy
      obtain ⟨x, hx, hxc⟩ := hbelow.exists_root c hc
      exact ⟨x, List.mem_append_left _ hx, hxc⟩

/-- Every node is a root, or a part of the node that it says it is part of. -/
theorem root_or_child (h : Forest parent roots es) : ∀ x ∈ es,
    (x.parent = parent ∧ x.id ∈ roots) ∨ ∃ y ∈ es, x.parent = some y.id ∧ x.id ∈ y.children := by
  induction h with
  | nil => simp
  | append _ _ ih ih' =>
    intro x hx
    rcases List.mem_append.1 hx with hx | hx
    · rcases ih x hx with ⟨hp, hroot⟩ | ⟨y, hy, hp, hc⟩
      · exact .inl ⟨hp, List.mem_append_left _ hroot⟩
      · exact .inr ⟨y, List.mem_append_left _ hy, hp, hc⟩
    · rcases ih' x hx with ⟨hp, hroot⟩ | ⟨y, hy, hp, hc⟩
      · exact .inl ⟨hp, List.mem_append_right _ hroot⟩
      · exact .inr ⟨y, List.mem_append_right _ hy, hp, hc⟩
  | @node y es _ ih =>
    intro x hx
    rcases List.mem_append.1 hx with hx | hx
    · rcases ih x hx with ⟨hp, hroot⟩ | ⟨z, hz, hp, hc⟩
      · exact .inr ⟨y, by simp, hp, hroot⟩
      · exact .inr ⟨z, List.mem_append_left _ hz, hp, hc⟩
    · rw [List.mem_singleton] at hx
      subst hx
      exact .inl ⟨rfl, by simp⟩

/-- The nodes are the roots and the parts of the nodes, each as often as it is listed. -/
theorem perm_ids (h : Forest parent roots es) : (es.map Entry.id).Perm (roots ++ es.flatMap Entry.children) := by
  refine List.perm_iff_count.2 fun i => ?_
  induction h with
  | nil => simp
  | append _ _ ih ih' =>
    simp only [List.map_append, List.flatMap_append, List.count_append] at ih ih' ⊢
    omega
  | node _ ih =>
    simp only [List.map_append, List.flatMap_append, List.flatMap_singleton, List.map_singleton,
      List.count_append] at ih ⊢
    omega

/-- Expressions that are numbered in the order in which they are listed have larger numbers than their parts. -/
theorem child_lt (h : Forest parent roots es) (hsorted : (exprIds es).Pairwise (· < ·)) {i c : ExprId}
    {n : ExprNode} (hi : .expr i n ∈ es) (hc : c ∈ n.kind.children) : c.index < i.index := by
  induction h with
  | nil => cases hi
  | append _ _ ih ih' =>
    rw [exprIds_append, List.pairwise_append] at hsorted
    rcases List.mem_append.1 hi with hi | hi
    · exact ih hsorted.1 hi
    · exact ih' hsorted.2.1 hi
  | node hbelow ih =>
    rw [exprIds_append, List.pairwise_append] at hsorted
    rcases List.mem_append.1 hi with hi | hi
    · exact ih hsorted.1 hi
    · rw [List.mem_singleton] at hi
      subst hi
      obtain ⟨x, hx, hid, -⟩ := hbelow.exists_root (.expr c) (List.mem_map_of_mem hc)
      cases x with
      | expr j m =>
        cases hid
        exact hsorted.2.2 _ (mem_exprIds hx) _ (List.mem_singleton.2 rfl)
      | stmt j m => cases hid
      | decl j m => cases hid

end Forest

/-! ## Trees -/

section Trees

/-- A node behind the trees of its parts. -/
theorem Forest.expr {e : Expr} {es : List Entry} (parent : NodeId)
    (h : Forest (some (.expr e.id)) (e.children.map fun c => .expr c.id) es) :
    Forest (some parent) [.expr e.id] (es ++ [e.entry parent]) := by
  have hchildren : (e.entry parent).children = e.children.map fun c => .expr c.id := by
    show e.kind.children.map NodeId.expr = _
    rw [Expr.kind_children, List.map_map]
    rfl
  rw [← hchildren] at h
  exact Forest.node (x := e.entry parent) h

theorem Expr.forest (e : Expr) (parent : NodeId) : Forest (some parent) [.expr e.id] (e.entries parent) := by
  induction e using Expr.induct generalizing parent with
  | binary info op left right ihl ihr =>
    rw [Expr.entries]
    exact .expr parent ((ihl _).append (ihr _))
  | unary info op operand ih =>
    rw [Expr.entries]
    exact .expr parent (ih _)
  | assign info target value iht ihv =>
    rw [Expr.entries]
    exact .expr parent ((iht _).append (ihv _))
  | var info ident => exact .expr (e := .var info ident) parent .nil
  | arrayAccess info ident index ih =>
    rw [Expr.entries]
    exact .expr parent (ih _)
  | call info ident args ih =>
    rw [Expr.entries, Expr.entriesAll_eq]
    exact .expr parent (.flatMap _ fun a ha => ih a ha _)
  | initList info elements ih =>
    rw [Expr.entries, Expr.entriesAll_eq]
    exact .expr parent (.flatMap _ fun a ha => ih a ha _)
  | literal info value => exact .expr (e := .literal info value) parent .nil
  | intToFloat info operand ih =>
    rw [Expr.entries]
    exact .expr parent (ih _)

theorem Expr.forestOption (o : Option Expr) (parent : NodeId) :
    Forest (some parent) ((o.map Expr.id).toList.map .expr) (Expr.entriesOption parent o) := by
  cases o with
  | none => exact .nil
  | some e => exact e.forest parent

theorem VarDecl.forest (d : VarDecl) (parent : NodeId) : Forest (some parent) [.decl d.id] (d.entries parent) := by
  have hchildren : d.kind.children = (d.init.map Expr.id).toList.map .expr := by
    unfold VarDecl.kind
    split <;> rfl
  have hbelow := Expr.forestOption d.init (.decl d.id)
  rw [← hchildren] at hbelow
  exact Forest.node (x := .decl d.id ⟨d.kind, d.ident, d.ty, d.span, some parent⟩) hbelow

theorem Stmt.forest (s : Stmt) (parent : NodeId) : Forest (some parent) [.stmt s.id] (s.entries parent) := by
  have hnode {s : Stmt} {es : List Entry} {parent : NodeId} (h : Forest (some (.stmt s.id)) s.kind.children es) :
      Forest (some parent) [.stmt s.id] (es ++ [s.entry parent]) := Forest.node (x := s.entry parent) h
  induction s using Stmt.induct generalizing parent with
  | compound info decls stmts ih =>
    rw [Stmt.entries, Stmt.entriesAll_eq]
    refine hnode ?_
    have hdecls : Forest (some (.stmt info.id)) (decls.map fun d => .decl d.id)
        (decls.flatMap (VarDecl.entries (.stmt info.id))) := .flatMap _ fun d _ => d.forest _
    have hstmts : Forest (some (.stmt info.id)) (stmts.map fun s => .stmt s.id)
        (stmts.flatMap (Stmt.entries (.stmt info.id))) := .flatMap _ fun s hs => ih s hs _
    show Forest (some (.stmt info.id)) _ _
    simpa [Stmt.kind, StmtKind.children, Function.comp_def] using hdecls.append hstmts
  | ifThen info cond thenBranch ih =>
    rw [Stmt.entries]
    exact hnode ((cond.forest _).append (ih _))
  | ifElse info cond thenBranch elseBranch ihThen ihElse =>
    rw [Stmt.entries]
    exact hnode (((cond.forest _).append (ihThen _)).append (ihElse _))
  | whileStmt info cond body ih =>
    rw [Stmt.entries]
    exact hnode ((cond.forest _).append (ih _))
  | forStmt info init cond update body ih =>
    rw [Stmt.entries]
    refine hnode ?_
    have hparts := (((Expr.forestOption init (.stmt info.id)).append (Expr.forestOption cond _)).append
      (Expr.forestOption update _)).append (ih (.stmt info.id))
    show Forest (some (.stmt info.id)) _ _
    simpa [Stmt.kind, StmtKind.children] using hparts
  | breakStmt info => exact hnode (s := .breakStmt info) .nil
  | continueStmt info => exact hnode (s := .continueStmt info) .nil
  | returnStmt info value =>
    rw [Stmt.entries]
    exact hnode (Expr.forestOption value _)
  | exprStmt info expr =>
    rw [Stmt.entries]
    exact hnode (expr.forest _)
  | emptyStmt info => exact hnode (s := .emptyStmt info) .nil

theorem forest_params (parent : NodeId) (ps : List Param) :
    Forest (some parent) (ps.map fun p => .decl p.id) (ps.map (Param.entry parent)) := by
  rw [List.map_eq_flatMap (f := Param.entry parent)]
  exact .flatMap _ fun p _ => .leaf (x := p.entry parent) rfl

theorem Function.forest (f : Function) : Forest (some .program) [.decl f.id] f.entries := by
  have hparts := (forest_params (.decl f.id) f.params).append (f.body.toStmt.forest (.decl f.id))
  have hbody : f.body.toStmt.id = f.body.id := rfl
  rw [hbody] at hparts
  refine Forest.node (x := .decl f.id ⟨.func (f.params.map Param.id) (some f.body.id) f.hasReturn, f.ident, f.ty,
    f.span, some .program⟩) ?_
  show Forest (some (.decl f.id)) _ _
  simpa [Entry.children, DeclKind.children, Function.comp_def] using hparts

/-- The node of a predeclared function. -/
theorem Prototype.root_mem (f : Prototype) :
    Entry.decl f.id ⟨.func (f.params.map Param.id) none false, f.ident, f.ty, f.span, none⟩ ∈ f.entries :=
  List.mem_append_right _ (List.mem_singleton.2 rfl)

theorem Prototype.param_mem {f : Prototype} {p : Param} (hp : p ∈ f.params) : p.entry (.decl f.id) ∈ f.entries :=
  List.mem_append_left _ (List.mem_map.2 ⟨p, hp, rfl⟩)

/-- A predeclared function is a tree of its own. -/
theorem Prototype.forest (f : Prototype) : Forest none [.decl f.id] f.entries := by
  have hparts := forest_params (.decl f.id) f.params
  refine Forest.node (x := .decl f.id ⟨.func (f.params.map Param.id) none false, f.ident, f.ty, f.span, none⟩) ?_
  show Forest (some (.decl f.id)) _ _
  simpa [Entry.children, DeclKind.children, Function.comp_def] using hparts

theorem TopDecl.forest (d : TopDecl) : Forest (some .program) [.decl d.id] d.entries := by
  cases d with
  | func f => exact f.forest
  | var d => exact d.forest .program

end Trees

end VCLang
