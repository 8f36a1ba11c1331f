/-
The links of a flat form. Every node names its parts and what it is part of, and the two agree: the nodes
make one tree below the program, beside which there are only the predeclared functions.
-/
import Mathlib.Logic.Relation
import VCLang.Proofs.Arena.Placed
import VCLang.Proofs.Tree.Forest
namespace VCLang

/-- The number of an expression, for a node that is one. -/
def NodeId.expr? : NodeId → Option ExprId
  | expr id => some id
  | _ => none

/-- The name that is used or declared at a node. -/
def Entry.ident? : Entry → Option Ident
  | expr _ node => node.kind.ident?
  | stmt _ _ => none
  | decl _ node => some node.ident

namespace Arena

variable {a : Arena}

/-! ## Links -/

/-- A flat form has a node of a number. -/
def Contains (a : Arena) : NodeId → Prop
  | .program => True
  | .decl id => id.index < a.decls.size
  | .stmt id => id.index < a.stmts.size
  | .expr id => id.index < a.exprs.size

/-- What a node names as its parts, in order. -/
def childrenOf (a : Arena) : NodeId → List NodeId
  | .program => a.program.map .decl
  | .decl id => (a.decl? id).toList.flatMap (·.kind.children)
  | .stmt id => (a.stmt? id).toList.flatMap (·.kind.children)
  | .expr id => (a.expr? id).toList.flatMap fun n => n.kind.children.map .expr

/-- The name that is used or declared at a node. -/
def identOf (a : Arena) : NodeId → Option Ident
  | .program => none
  | .decl id => (a.decl? id).map (·.ident)
  | .stmt _ => none
  | .expr id => (a.expr? id).bind (·.kind.ident?)

/-- A node is part of another, or of a part of it. -/
def Under (a : Arena) : NodeId → NodeId → Prop := Relation.TransGen fun x y => a.parentOf x = some y

/-- Above a node stand what it is part of and what is above that. -/
theorem under_iff {x y q : NodeId} (h : a.parentOf x = some q) : a.Under x y ↔ y = q ∨ a.Under q y := by
  have hstep : a.Under x y ↔
      ∃ z, a.parentOf x = some z ∧ Relation.ReflTransGen (fun x y => a.parentOf x = some y) z y :=
    Relation.TransGen.head'_iff
  simp only [hstep, h, Option.some.injEq, exists_eq_left', Relation.reflTransGen_iff_eq_or_transGen]
  rfl

theorem not_under {x y : NodeId} (h : a.parentOf x = none) : ¬ a.Under x y := by
  intro hunder
  obtain ⟨z, hz, -⟩ := Relation.TransGen.head'_iff.1 hunder
  cases h.symm.trans hz

/-- The links of a flat form agree, and make one tree of all nodes but those of some library functions. -/
structure Linked (a : Arena) (library : List DeclId) : Prop where
  contains_child : ∀ x, ∀ y ∈ a.childrenOf x, a.Contains y
  contains_parent : ∀ x y, a.parentOf x = some y → a.Contains y
  contains_bound : ∀ x, ∀ i ∈ a.identOf x, ∀ d ∈ i.decl, a.Contains (.decl d)
  contains_library : ∀ d ∈ library, a.Contains (.decl d)
  /-- What a node names as its part has that node for its parent. -/
  parent_of_child : ∀ x, ∀ y ∈ a.childrenOf x, a.parentOf y = some x
  /-- A node is named once by its parent. -/
  child_of_parent : ∀ x y, a.parentOf y = some x → (a.childrenOf x).count y = 1
  /-- Nothing but the library functions is part of nothing. -/
  orphan : ∀ x, a.Contains x → x ≠ .program → (a.parentOf x = none ↔ ∃ d ∈ library, x = .decl d)
  /-- All nodes but the library functions and their parameters are under the program. -/
  under_program : ∀ x, a.Contains x → x ≠ .program →
    a.Under x .program ∨ ∃ d ∈ library, ∃ p, x = .decl p ∧ (p = d ∨ a.parentOf x = some (.decl d))

/-- What nodes name as their parts and what they are part of agree: what a node names has that node for its parent,
and what has a parent is named by it. No node is named twice, by one node or, as it has one parent, by two. -/
structure Consistent (a : Arena) : Prop where
  parent_of_child : ∀ x, ∀ y ∈ a.childrenOf x, a.parentOf y = some x
  mem_childrenOf : ∀ x y, a.parentOf y = some x → y ∈ a.childrenOf x
  nodup : ∀ x, (a.childrenOf x).Nodup

theorem Linked.consistent {library : List DeclId} (h : a.Linked library) : a.Consistent where
  parent_of_child := h.parent_of_child
  mem_childrenOf x y hy := by
    rw [← List.count_pos_iff, h.child_of_parent x y hy]
    exact Nat.one_pos
  nodup x := by
    refine List.nodup_iff_count_le_one.2 fun y => ?_
    by_cases hy : y ∈ a.childrenOf x
    · exact Nat.le_of_eq (h.child_of_parent x y (h.parent_of_child x y hy))
    · rw [List.count_eq_zero.2 hy]
      exact Nat.zero_le 1

/-- The expressions at and under some nodes, each behind its parts. -/
inductive PostOrder (a : Arena) : List NodeId → List ExprId → Prop
  | nil : PostOrder a [] []
  | cons {x : NodeId} {xs : List NodeId} {below rest : List ExprId} : PostOrder a (a.childrenOf x) below →
    PostOrder a xs rest → PostOrder a (x :: xs) (below ++ x.expr?.toList ++ rest)

theorem PostOrder.append {xs ys : List NodeId} {es fs : List ExprId} (h : a.PostOrder xs es)
    (h' : a.PostOrder ys fs) : a.PostOrder (xs ++ ys) (es ++ fs) := by
  induction h with
  | nil => exact h'
  | cons hbelow _ _ ih =>
    rw [List.append_assoc]
    exact .cons hbelow ih

/-! ## Nodes -/

theorem Holds.parentOf {x : Entry} (h : a.Holds x) : a.parentOf x.id = x.parent := by
  cases x <;> simp_all [Holds, Arena.parentOf, Entry.id, Entry.parent]

theorem Holds.childrenOf {x : Entry} (h : a.Holds x) : a.childrenOf x.id = x.children := by
  cases x <;> simp_all [Holds, Arena.childrenOf, Entry.id, Entry.children]

theorem Holds.identOf {x : Entry} (h : a.Holds x) : a.identOf x.id = x.ident? := by
  cases x <;> simp_all [Holds, Arena.identOf, Entry.id, Entry.ident?]

theorem Holds.contains {x : Entry} (h : a.Holds x) : a.Contains x.id := by
  cases x <;> exact (Array.getElem?_eq_some_iff.1 h).1

/-- What a flat form contains beside the program it holds. -/
theorem exists_holds {y : NodeId} (h : a.Contains y) (hy : y ≠ .program) : ∃ x, a.Holds x ∧ x.id = y := by
  cases y with
  | program => exact absurd rfl hy
  | decl id => exact ⟨.decl id _, Array.getElem?_eq_getElem h, rfl⟩
  | stmt id => exact ⟨.stmt id _, Array.getElem?_eq_getElem h, rfl⟩
  | expr id => exact ⟨.expr id _, Array.getElem?_eq_getElem h, rfl⟩

/-- A node with a link is in the flat form. -/
theorem holds_of_parentOf {x y : NodeId} (h : a.parentOf y = some x) :
    ∃ e, a.Holds e ∧ e.id = y ∧ e.parent = some x := by
  cases y with
  | program => cases h
  | decl id =>
    obtain ⟨n, hn, hp⟩ := Option.bind_eq_some_iff.1 h
    exact ⟨.decl id n, hn, rfl, hp⟩
  | stmt id =>
    obtain ⟨n, hn, hp⟩ := Option.bind_eq_some_iff.1 h
    exact ⟨.stmt id n, hn, rfl, hp⟩
  | expr id =>
    obtain ⟨n, hn, hp⟩ := Option.bind_eq_some_iff.1 h
    exact ⟨.expr id n, hn, rfl, hp⟩

theorem contains_of_parentOf {x y : NodeId} (h : a.parentOf y = some x) : a.Contains y := by
  obtain ⟨e, he, rfl, -⟩ := holds_of_parentOf h
  exact he.contains

theorem holds_of_childrenOf {x y : NodeId} (h : y ∈ a.childrenOf x) :
    (x = .program ∧ y ∈ a.program.map .decl) ∨ ∃ e, a.Holds e ∧ e.id = x ∧ y ∈ e.children := by
  cases x with
  | program => exact .inl ⟨rfl, h⟩
  | decl id =>
    obtain ⟨n, hn, hy⟩ := List.mem_flatMap.1 h
    exact .inr ⟨.decl id n, Option.mem_toList.1 hn, rfl, hy⟩
  | stmt id =>
    obtain ⟨n, hn, hy⟩ := List.mem_flatMap.1 h
    exact .inr ⟨.stmt id n, Option.mem_toList.1 hn, rfl, hy⟩
  | expr id =>
    obtain ⟨n, hn, hy⟩ := List.mem_flatMap.1 h
    exact .inr ⟨.expr id n, Option.mem_toList.1 hn, rfl, hy⟩

theorem contains_of_childrenOf {x y : NodeId} (h : y ∈ a.childrenOf x) : a.Contains x := by
  rcases holds_of_childrenOf h with ⟨rfl, -⟩ | ⟨e, he, rfl, -⟩
  · trivial
  · exact he.contains

theorem holds_of_identOf {x : NodeId} {i : Ident} (h : i ∈ a.identOf x) : ∃ e, a.Holds e ∧ e.id = x ∧ i ∈ e.ident? := by
  cases x with
  | program => cases h
  | decl id =>
    obtain ⟨n, hn, rfl⟩ := Option.map_eq_some_iff.1 h
    exact ⟨.decl id n, hn, rfl, rfl⟩
  | stmt id => cases h
  | expr id =>
    obtain ⟨n, hn, hi⟩ := Option.bind_eq_some_iff.1 h
    exact ⟨.expr id n, hn, rfl, hi⟩

/-! ## Trees in a flat form -/

variable {parent : Option NodeId} {roots : List NodeId} {es : List Entry}

/-- The nodes of trees are under what the trees are part of. -/
theorem Has.under (ha : a.Has es) {q : NodeId} (h : Forest (some q) roots es) : ∀ x ∈ es, a.Under x.id q := by
  generalize hq : some q = parent at h
  induction h generalizing q with
  | nil => simp
  | append _ _ ih ih' =>
    rw [has_append] at ha
    intro x hx
    rcases List.mem_append.1 hx with hx | hx
    · exact ih ha.1 hq x hx
    · exact ih' ha.2 hq x hx
  | @node y es _ ih =>
    rw [has_append] at ha
    have hroot : a.parentOf y.id = some q := by
      rw [Holds.parentOf (ha.2 y (by simp)), hq]
    intro x hx
    rcases List.mem_append.1 hx with hx | hx
    · exact (ih ha.1 rfl x hx).tail hroot
    · rw [List.mem_singleton] at hx
      subst hx
      exact .single hroot

/-- The expressions of trees stand in post-order. -/
theorem Has.postOrder (ha : a.Has es) (h : Forest parent roots es) :
    a.PostOrder roots (es.filterMap fun x => x.id.expr?) := by
  induction h with
  | nil => exact .nil
  | append _ _ ih ih' =>
    rw [has_append] at ha
    rw [List.filterMap_append]
    exact (ih ha.1).append (ih' ha.2)
  | @node y es _ ih =>
    rw [has_append] at ha
    have hchildren := Holds.childrenOf (ha.2 y (by simp))
    have hbelow : a.PostOrder (a.childrenOf y.id) (es.filterMap fun x => x.id.expr?) := by
      rw [hchildren]
      exact ih ha.1
    have hnode := PostOrder.cons hbelow .nil
    rw [List.append_nil] at hnode
    rw [List.filterMap_append]
    cases hy : y.id.expr? <;> simpa [hy] using hnode

end Arena

/-! ## Programs -/

/-- Nodes of different kinds have different numbers. -/
theorem nodup_ids {es : List Entry} (hexprs : (exprIds es).Nodup) (hstmts : (stmtIds es).Nodup)
    (hdecls : (declIds es).Nodup) : (es.map Entry.id).Nodup := by
  simp only [exprIds, stmtIds, declIds, List.Nodup, List.pairwise_map, List.pairwise_filterMap]
    at hexprs hstmts hdecls ⊢
  refine ((hexprs.and hstmts).and hdecls).imp ?_
  rintro x y ⟨⟨he, hs⟩, hd⟩ hxy
  cases x with
  | expr id n =>
    cases y <;> cases hxy
    exact he _ rfl _ rfl rfl
  | stmt id n =>
    cases y <;> cases hxy
    exact hs _ rfl _ rfl rfl
  | decl id n =>
    cases y <;> cases hxy
    exact hd _ rfl _ rfl rfl

namespace Program

variable {p : Program}

/-- The declarations of a program are trees under it. -/
theorem forest_decls (p : Program) : Forest (some .program) (p.decls.map fun d => .decl d.id)
    (p.decls.flatMap TopDecl.entries) := .flatMap _ fun d _ => d.forest

/-- The predeclared functions are trees of their own. -/
theorem forest_predeclared (p : Program) : Forest none (p.predeclared.map fun f => .decl f.id)
    (p.predeclared.flatMap Prototype.entries) := .flatMap _ fun f _ => f.forest

/-- Every node of a program is one of the trees under it, or one of those of the predeclared functions. -/
theorem exists_forest {x : Entry} (hx : x ∈ p.entries) : ∃ parent roots es, Forest parent roots es ∧ x ∈ es ∧
    (∀ y ∈ es, y ∈ p.entries) ∧ ((parent = some .program ∧ roots = p.decls.map fun d => .decl d.id) ∨
      (parent = none ∧ roots = p.predeclared.map fun f => .decl f.id)) := by
  rcases List.mem_append.1 hx with hx | hx
  · exact ⟨_, _, _, p.forest_decls, hx, fun y hy => List.mem_append_left _ hy, .inl ⟨rfl, rfl⟩⟩
  · exact ⟨_, _, _, p.forest_predeclared, hx, fun y hy => List.mem_append_right _ hy, .inr ⟨rfl, rfl⟩⟩

/-- No two nodes have one number. -/
theorem Complete.nodup (h : p.Complete) : (p.entries.map Entry.id).Nodup :=
  nodup_ids h.exprs.nodup h.stmts.nodup h.decls.nodup

/-- No node is named twice, as a part of one node or of two. -/
theorem Complete.nodup_children (h : p.Complete) :
    ((p.decls.map fun d => NodeId.decl d.id) ++ p.entries.flatMap Entry.children).Nodup := by
  have hnodup := h.nodup
  have hperm := p.forest_decls.perm_ids.append p.forest_predeclared.perm_ids
  rw [← List.map_append] at hperm
  rw [List.nodup_iff_count_le_one] at hnodup ⊢
  intro i
  have hcount := List.perm_iff_count.1 hperm i
  have hone : (p.entries.map Entry.id).count i ≤ 1 := hnodup i
  rw [Program.entries] at hone ⊢
  simp only [List.count_append, List.flatMap_append] at hcount ⊢
  omega

theorem Complete.nodup_childrenOf (h : p.Complete) (x : NodeId) : (p.arena.childrenOf x).Nodup := by
  obtain ⟨hroots, hparts, -⟩ := List.nodup_append.1 h.nodup_children
  have hnode {e : Entry} (he : p.arena.Holds e) : e.children.Nodup :=
    (List.nodup_flatMap.1 hparts).1 e ((h.holds_iff e).1 he)
  cases x with
  | program =>
    rw [Arena.childrenOf, arena, List.map_map]
    exact hroots
  | decl id =>
    cases hn : p.arena.decl? id with
    | none => simp [Arena.childrenOf, hn]
    | some n => simpa [Arena.childrenOf, hn, Entry.children] using @hnode (.decl id n) hn
  | stmt id =>
    cases hn : p.arena.stmt? id with
    | none => simp [Arena.childrenOf, hn]
    | some n => simpa [Arena.childrenOf, hn, Entry.children] using @hnode (.stmt id n) hn
  | expr id =>
    cases hn : p.arena.expr? id with
    | none => simp [Arena.childrenOf, hn]
    | some n => simpa [Arena.childrenOf, hn, Entry.children] using @hnode (.expr id n) hn

/-- A part that is named is a node, and has the node that names it for its parent. -/
theorem Complete.exists_child (h : p.Complete) {x y : NodeId} (hy : y ∈ p.arena.childrenOf x) :
    ∃ e, p.arena.Holds e ∧ e.id = y ∧ e.parent = some x := by
  rcases Arena.holds_of_childrenOf hy with ⟨rfl, hroot⟩ | ⟨z, hz, rfl, hchild⟩
  · rw [arena, List.map_map] at hroot
    obtain ⟨e, he, hid, hparent⟩ := p.forest_decls.exists_root y hroot
    exact ⟨e, h.has e (List.mem_append_left _ he), hid, hparent⟩
  · obtain ⟨parent, roots, es, hforest, hmem, hsub, -⟩ := exists_forest ((h.holds_iff z).1 hz)
    obtain ⟨e, he, hid, hparent⟩ := hforest.exists_child z hmem y hchild
    exact ⟨e, h.has e (hsub e he), hid, hparent⟩

/-- A node is named by its parent. -/
theorem Complete.mem_childrenOf (h : p.Complete) {x y : NodeId} (hp : p.arena.parentOf y = some x) :
    y ∈ p.arena.childrenOf x := by
  obtain ⟨e, he, rfl, hparent⟩ := Arena.holds_of_parentOf hp
  obtain ⟨parent, roots, es, hforest, hmem, hsub, hwhich⟩ := exists_forest ((h.holds_iff e).1 he)
  rcases hforest.root_or_child e hmem with ⟨hroot, hmem'⟩ | ⟨z, hz, hz', hc⟩
  · rcases hwhich with ⟨rfl, rfl⟩ | ⟨rfl, -⟩
    · cases hparent.symm.trans hroot
      rw [Arena.childrenOf, arena, List.map_map]
      exact hmem'
    · cases hparent.symm.trans hroot
  · cases hparent.symm.trans hz'
    rw [(h.has z (hsub z hz)).childrenOf]
    exact hc

/-- What is part of nothing is a predeclared function. -/
theorem Complete.orphan_iff (h : p.Complete) {x : NodeId} (hx : p.arena.Contains x) (hne : x ≠ .program) :
    p.arena.parentOf x = none ↔ ∃ d ∈ p.predeclared.map fun f => f.id, x = .decl d := by
  constructor
  · intro hnone
    obtain ⟨e, he, rfl⟩ := Arena.exists_holds hx hne
    rw [he.parentOf] at hnone
    obtain ⟨parent, roots, es, hforest, hmem, -, hwhich⟩ := exists_forest ((h.holds_iff e).1 he)
    rcases hforest.root_or_child e hmem with ⟨hroot, hmem'⟩ | ⟨z, -, hz, -⟩
    · rcases hwhich with ⟨rfl, -⟩ | ⟨rfl, rfl⟩
      · cases hnone.symm.trans hroot
      · obtain ⟨f, hf, hid⟩ := List.mem_map.1 hmem'
        exact ⟨f.id, List.mem_map_of_mem hf, hid.symm⟩
    · cases hnone.symm.trans hz
  · rintro ⟨d, hd, rfl⟩
    obtain ⟨f, hf, rfl⟩ := List.mem_map.1 hd
    obtain ⟨e, he, hid, hparent⟩ := p.forest_predeclared.exists_root (.decl f.id) (List.mem_map.2 ⟨f, hf, rfl⟩)
    rw [← hid, (h.has e (List.mem_append_right _ he)).parentOf, hparent]

/-- A node is under the program, or it is a predeclared function or a parameter of one. -/
theorem Complete.under_program (h : p.Complete) {x : NodeId} (hx : p.arena.Contains x) (hne : x ≠ .program) :
    p.arena.Under x .program ∨
      ∃ d ∈ p.predeclared.map fun f => f.id, ∃ q, x = .decl q ∧ (q = d ∨ p.arena.parentOf x = some (.decl d)) := by
  obtain ⟨e, he, rfl⟩ := Arena.exists_holds hx hne
  have hmem := (h.holds_iff e).1 he
  rw [Program.entries, List.mem_append] at hmem
  rcases hmem with hmem | hmem
  · have hdecls : p.arena.Has (p.decls.flatMap TopDecl.entries) := fun y hy => h.has y (List.mem_append_left _ hy)
    exact .inl (hdecls.under p.forest_decls e hmem)
  · obtain ⟨f, hf, hmem⟩ := List.mem_flatMap.1 hmem
    refine .inr ⟨f.id, List.mem_map_of_mem hf, ?_⟩
    rw [Prototype.entries, List.mem_append, List.mem_map, List.mem_singleton] at hmem
    rcases hmem with ⟨q, -, rfl⟩ | rfl
    · exact ⟨q.id, rfl, .inr he.parentOf⟩
    · exact ⟨f.id, rfl, .inl rfl⟩

/-- The links of the flat form of a program agree if its names are bound within it. -/
theorem Complete.linked (h : p.Complete)
    (hbound : ∀ x ∈ p.entries, ∀ i ∈ x.ident?, ∀ d ∈ i.decl, d.index < p.declCount) :
    p.arena.Linked (p.predeclared.map fun f => f.id) where
  contains_child x y hy := by
    obtain ⟨e, he, rfl, -⟩ := h.exists_child hy
    exact he.contains
  contains_parent x y hp := Arena.contains_of_childrenOf (h.mem_childrenOf hp)
  contains_bound x i hi d hd := by
    obtain ⟨e, he, rfl, hident⟩ := Arena.holds_of_identOf hi
    have hlt := hbound e ((h.holds_iff e).1 he) i hident d hd
    show d.index < (place _).size
    rwa [size_place]
  contains_library d hd := by
    obtain ⟨f, hf, rfl⟩ := List.mem_map.1 hd
    exact (h.has _ (List.mem_append_right _ (List.mem_flatMap.2 ⟨f, hf, f.root_mem⟩))).contains
  parent_of_child x y hy := by
    obtain ⟨e, he, rfl, hparent⟩ := h.exists_child hy
    rw [he.parentOf, hparent]
  child_of_parent x y hp := List.count_eq_one_of_mem (h.nodup_childrenOf x) (h.mem_childrenOf hp)
  orphan x hx hne := h.orphan_iff hx hne
  under_program x hx hne := h.under_program hx hne

end Program

end VCLang
