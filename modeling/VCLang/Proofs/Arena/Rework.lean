/-
What edits make of some nodes of a flat form. Nodes that are held become others, which keep their numbers or get such as
were free; every other node stays as it is. So what edits make of the nodes of a part they make of them in the whole,
and edits one after another make what the last of them makes of what the others have made.

The single edits are read off the nodes that they touch: a node by itself, a loop with its new condition, or an
expression with its new conversion and what both are part of.
-/
import VCLang.Proofs.Arena.Edited
import VCLang.Proofs.Arena.Rewired
namespace VCLang

open Arena Edit

variable {a b c : Arena} {es es' es'' fs : List Entry} {N n n₁ n' : Nat} {edits more : List Edit}

/-! ## Nodes that have become others -/

/-- Between two flat forms some nodes have become others, and the rest has stayed. -/
structure Reworked (a b : Arena) (es es' : List Entry) : Prop where
  has : b.Has es'
  nodup : (es'.map Entry.id).Nodup
  kept : ∀ x, a.Holds x → x.id ∉ es.map Entry.id → b.Holds x
  fresh : ∀ x ∈ es', x.id ∉ es.map Entry.id → ¬ a.Contains x.id
  grown : ∀ y, a.Contains y → b.Contains y
  stmts : b.stmts.size = a.stmts.size
  decls : b.decls.size = a.decls.size
  program : b.program = a.program
  span : b.span = a.span

namespace Reworked

theorem refl (hhas : a.Has es) (hnodup : (es.map Entry.id).Nodup) : Reworked a a es es where
  has := hhas
  nodup := hnodup
  kept _ hx _ := hx
  fresh _ hx hnot := absurd (List.mem_map_of_mem hx) hnot
  grown _ hy := hy
  stmts := rfl
  decls := rfl
  program := rfl
  span := rfl

/-- What nodes become and what becomes of that. -/
theorem trans (h : Reworked a b es es') (h' : Reworked b c es' es'') : Reworked a c es es'' where
  has := h'.has
  nodup := h'.nodup
  kept x hx hnot := by
    refine h'.kept x (h.kept x hx hnot) fun hmem => ?_
    obtain ⟨y, hy, hid⟩ := List.mem_map.1 hmem
    have hfresh := h.fresh y hy (hid ▸ hnot)
    rw [hid] at hfresh
    exact hfresh hx.contains
  fresh x hx hnot hcontains := by
    by_cases hmem : x.id ∈ es'.map Entry.id
    · obtain ⟨y, hy, hid⟩ := List.mem_map.1 hmem
      have hfresh := h.fresh y hy (hid ▸ hnot)
      rw [hid] at hfresh
      exact hfresh hcontains
    · exact h'.fresh x hx hmem (h.grown _ hcontains)
  grown y hy := h'.grown y (h.grown y hy)
  stmts := h'.stmts.trans h.stmts
  decls := h'.decls.trans h.decls
  program := h'.program.trans h.program
  span := h'.span.trans h.span

/-- Nodes beside those that become others stay beside them. -/
theorem frame (h : Reworked a b es es') (hfs : a.Has fs) (hnodup : ((es ++ fs).map Entry.id).Nodup) :
    Reworked a b (es ++ fs) (es' ++ fs) := by
  rw [List.map_append] at hnodup
  have hdisjoint {x : Entry} (hx : x ∈ fs) : x.id ∉ es.map Entry.id := fun hmem =>
    (List.nodup_append.1 hnodup).2.2 _ hmem _ (List.mem_map_of_mem hx) rfl
  constructor
  · exact has_append.2 ⟨h.has, fun x hx => h.kept x (hfs x hx) (hdisjoint hx)⟩
  · rw [List.map_append, List.nodup_append]
    refine ⟨h.nodup, (List.nodup_append.1 hnodup).2.1, ?_⟩
    rintro i hi _ hj rfl
    obtain ⟨x, hx, rfl⟩ := List.mem_map.1 hi
    obtain ⟨y, hy, hid⟩ := List.mem_map.1 hj
    -- a node with this number was there, so that the number was not free
    refine h.fresh x hx (hid ▸ hdisjoint hy) ?_
    rw [← hid]
    exact (hfs y hy).contains
  · intro x hx hnot
    rw [List.map_append, List.mem_append, not_or] at hnot
    exact h.kept x hx hnot.1
  · intro x hx hnot
    rw [List.map_append, List.mem_append, not_or] at hnot
    rcases List.mem_append.1 hx with hx | hx
    · exact h.fresh x hx hnot.1
    · exact absurd (List.mem_map_of_mem hx) hnot.2
  · exact h.grown
  · exact h.stmts
  · exact h.decls
  · exact h.program
  · exact h.span

theorem perm {fs' : List Entry} (h : Reworked a b es es') (hes : es.Perm fs) (hes' : es'.Perm fs') :
    Reworked a b fs fs' where
  has x hx := h.has x (hes'.mem_iff.2 hx)
  nodup := (hes'.map Entry.id).nodup_iff.1 h.nodup
  kept x hx hnot := h.kept x hx fun hmem => hnot ((hes.map Entry.id).mem_iff.1 hmem)
  fresh x hx hnot := h.fresh x (hes'.mem_iff.2 hx) fun hmem => hnot ((hes.map Entry.id).mem_iff.1 hmem)
  grown := h.grown
  stmts := h.stmts
  decls := h.decls
  program := h.program
  span := h.span

end Reworked

/-! ## What edits make of nodes -/

/-- A flat form with some nodes, of all different numbers, and with enough declarations; `n` expressions are there. -/
structure Ready (a : Arena) (N n : Nat) (es : List Entry) : Prop where
  has : a.Has es
  nodup : (es.map Entry.id).Nodup
  decls : N ≤ a.decls.size
  exprs : a.exprs.size = n

/-- Edits can be made, one after another, wherever some nodes are, and make others of them. Before them there are `n`
expressions, behind them `n'`; of declarations there are `N` at least. -/
def Reworks (N : Nat) (edits : List Edit) (n : Nat) (es es' : List Entry) (n' : Nat) : Prop :=
  ∀ ⦃a⦄, Ready a N n es →
    AllValid a edits ∧ Reworked a (applyAll a edits) es es' ∧ (applyAll a edits).exprs.size = n'

namespace Reworks

theorem nil : Reworks N [] n es es n := fun _ ha => ⟨trivial, .refl ha.has ha.nodup, ha.exprs⟩

theorem one {e : Edit} (h : ∀ ⦃a⦄, Ready a N n es →
    e.Valid a ∧ Reworked a (e.apply a) es es' ∧ (e.apply a).exprs.size = n') : Reworks N [e] n es es' n' :=
  fun _ ha => ⟨⟨(h ha).1, trivial⟩, (h ha).2⟩

theorem append (h : Reworks N edits n es es' n₁) (h' : Reworks N more n₁ es' es'' n') :
    Reworks N (edits ++ more) n es es'' n' := by
  intro a ha
  obtain ⟨hvalid, hreworked, hexprs⟩ := h ha
  obtain ⟨hvalid', hreworked', hexprs'⟩ :=
    h' ⟨hreworked.has, hreworked.nodup, hreworked.decls ▸ ha.decls, hexprs⟩
  rw [allValid_append, applyAll_append]
  exact ⟨⟨hvalid, hvalid'⟩, hreworked.trans hreworked', hexprs'⟩

theorem frame (h : Reworks N edits n es es' n') (fs : List Entry) :
    Reworks N edits n (es ++ fs) (es' ++ fs) n' := by
  intro a ha
  obtain ⟨hhas, hhas'⟩ := has_append.1 ha.has
  have hnodup := ha.nodup
  rw [List.map_append] at hnodup
  obtain ⟨hvalid, hreworked, hexprs⟩ := h ⟨hhas, (List.nodup_append.1 hnodup).1, ha.decls, ha.exprs⟩
  exact ⟨hvalid, hreworked.frame hhas' ha.nodup, hexprs⟩

theorem perm {fs' : List Entry} (h : Reworks N edits n es es' n') (hes : es.Perm fs) (hes' : es'.Perm fs') :
    Reworks N edits n fs fs' n' := by
  intro a ha
  obtain ⟨hvalid, hreworked, hexprs⟩ := h
    ⟨fun x hx => ha.has x (hes.mem_iff.1 hx), (hes.map Entry.id).nodup_iff.2 ha.nodup, ha.decls, ha.exprs⟩
  exact ⟨hvalid, hreworked.perm hes hes', hexprs⟩

/-- Nodes in front stay. -/
theorem behind (h : Reworks N edits n es es' n') (front : List Entry) :
    Reworks N edits n (front ++ es) (front ++ es') n' :=
  (h.frame front).perm List.perm_append_comm List.perm_append_comm

/-- Nodes on both sides stay. -/
theorem between (h : Reworks N edits n es es' n') (front back : List Entry) :
    Reworks N edits n (front ++ es ++ back) (front ++ es' ++ back) n' := (h.behind front).frame back

/-- Two parts of a whole are edited one after the other. -/
theorem beside {fs' : List Entry} (h : Reworks N edits n es es' n₁) (h' : Reworks N more n₁ fs fs' n') :
    Reworks N (edits ++ more) n (es ++ fs) (es' ++ fs') n' := (h.frame fs).append (h'.behind es')

end Reworks

/-! ## One node changed -/

theorem reworked_modifyExpr {id : ExprId} {node : ExprNode} (f : ExprNode → ExprNode) (hn : a.expr? id = some node) :
    Reworked a (a.modifyExpr id f) [.expr id node] [.expr id (f node)] where
  has := by
    intro x hx
    rw [List.mem_singleton.1 hx]
    change (a.modifyExpr id f).expr? id = _
    rw [expr?_modifyExpr, hn, Option.map_some, if_pos rfl]
  nodup := List.nodup_singleton _
  kept x hx hnot := by
    cases x with
    | expr id' node' =>
      have hne : id ≠ id' := by
        rintro rfl
        exact hnot (List.mem_singleton_self _)
      have hx : a.expr? id' = some node' := hx
      change (a.modifyExpr id f).expr? id' = _
      rw [expr?_modifyExpr, hx, Option.map_some, if_neg hne]
    | _ => exact hx
  fresh x hx hnot := by
    rw [List.mem_singleton.1 hx] at hnot
    exact absurd (List.mem_singleton_self _) hnot
  grown y hy := (contains_modifyExpr a id f y).2 hy
  stmts := rfl
  decls := rfl
  program := rfl
  span := rfl

theorem reworked_modifyDecl {id : DeclId} {node : DeclNode} (f : DeclNode → DeclNode) (hn : a.decl? id = some node) :
    Reworked a (a.modifyDecl id f) [.decl id node] [.decl id (f node)] where
  has := by
    intro x hx
    rw [List.mem_singleton.1 hx]
    change (a.modifyDecl id f).decl? id = _
    rw [decl?_modifyDecl, hn, Option.map_some, if_pos rfl]
  nodup := List.nodup_singleton _
  kept x hx hnot := by
    cases x with
    | decl id' node' =>
      have hne : id ≠ id' := by
        rintro rfl
        exact hnot (List.mem_singleton_self _)
      have hx : a.decl? id' = some node' := hx
      change (a.modifyDecl id f).decl? id' = _
      rw [decl?_modifyDecl, hx, Option.map_some, if_neg hne]
    | _ => exact hx
  fresh x hx hnot := by
    rw [List.mem_singleton.1 hx] at hnot
    exact absurd (List.mem_singleton_self _) hnot
  grown y hy := (contains_modifyDecl a id f y).2 hy
  stmts := rfl
  decls := Array.size_modify
  program := rfl
  span := rfl

/-- An edit of one expression. -/
theorem Reworks.expr {e : Edit} {id : ExprId} {f : ExprNode → ExprNode} (happly : ∀ a, e.apply a = a.modifyExpr id f)
    (hvalid : ∀ a : Arena, N ≤ a.decls.size → e.Valid a) (node : ExprNode) :
    Reworks N [e] n [.expr id node] [.expr id (f node)] n := by
  refine .one fun a ha => ?_
  rw [happly]
  have hn := ha.has (.expr id node) (List.mem_singleton_self _)
  exact ⟨hvalid a ha.decls, reworked_modifyExpr f hn, Array.size_modify.trans ha.exprs⟩

/-- An edit of one declaration. -/
theorem Reworks.decl {e : Edit} {id : DeclId} {f : DeclNode → DeclNode} (happly : ∀ a, e.apply a = a.modifyDecl id f)
    (hvalid : ∀ a : Arena, e.Valid a) (node : DeclNode) :
    Reworks N [e] n [.decl id node] [.decl id (f node)] n := by
  refine .one fun a ha => ?_
  rw [happly]
  have hn := ha.has (.decl id node) (List.mem_singleton_self _)
  exact ⟨hvalid a, reworked_modifyDecl f hn, ha.exprs⟩

/-! ## A condition put in -/

theorem reworked_fillCondition {loop : StmtId} {node : StmtNode} (hn : a.stmt? loop = some node) :
    Reworked a (a.fillCondition loop) [.stmt loop node]
      [.expr ⟨a.exprs.size⟩ ⟨.literal (.boolean "true"), node.span, some (.stmt loop), none⟩,
        .stmt loop { node with kind := node.kind.fillCondition ⟨a.exprs.size⟩ }] where
  has := by
    intro x hx
    rcases List.mem_pair.1 hx with rfl | rfl
    · change (a.fillCondition loop).expr? _ = _
      rw [expr?_fillCondition, if_pos rfl, hn]
      rfl
    · change (a.fillCondition loop).stmt? _ = _
      rw [stmt?_fillCondition, hn, Option.map_some, if_pos rfl]
  nodup := by simp [Entry.id]
  kept x hx hnot := by
    cases x with
    | expr id node' =>
      have hx : a.expr? id = some node' := hx
      have hne : id ≠ ⟨a.exprs.size⟩ := by
        rintro rfl
        exact Nat.lt_irrefl _ (Array.getElem?_eq_some_iff.1 hx).1
      change (a.fillCondition loop).expr? id = _
      rw [expr?_fillCondition, if_neg hne, hx]
    | stmt id node' =>
      have hx : a.stmt? id = some node' := hx
      have hne : loop ≠ id := by
        rintro rfl
        exact hnot (List.mem_singleton_self _)
      change (a.fillCondition loop).stmt? id = _
      rw [stmt?_fillCondition, hx, Option.map_some, if_neg hne]
    | decl id node' =>
      change (a.fillCondition loop).decl? id = _
      rw [decl?_fillCondition]
      exact hx
  fresh x hx hnot := by
    rcases List.mem_pair.1 hx with rfl | rfl
    · exact Nat.lt_irrefl _
    · exact absurd (List.mem_singleton_self _) hnot
  grown y hy := (contains_fillCondition a loop y).2 (.inr hy)
  stmts := by
    rw [fillCondition_eq]
    exact Array.size_modify
  decls := by rw [fillCondition_eq]
  program := program_fillCondition a loop
  span := by rw [fillCondition_eq]

/-- A loop without a condition gets one. -/
theorem Reworks.fill {loop : StmtId} {node : StmtNode} {init update : Option ExprId} {body : StmtId}
    (hkind : node.kind = .forStmt init none update body) : Reworks N [.fill loop] n [.stmt loop node]
      [.expr ⟨n⟩ ⟨.literal (.boolean "true"), node.span, some (.stmt loop), none⟩,
        .stmt loop { node with kind := .forStmt init (some ⟨n⟩) update body }] (n + 1) := by
  refine .one fun a ha => ?_
  have hn : a.stmt? loop = some node := ha.has (.stmt loop node) (List.mem_singleton_self _)
  have h := reworked_fillCondition hn
  rw [ha.exprs, hkind] at h
  refine ⟨⟨node, init, update, body, hn, hkind⟩, h, ?_⟩
  change (a.fillCondition loop).exprs.size = n + 1
  rw [fillCondition_eq, Array.size_push, ha.exprs]

/-! ## Places of nodes -/

namespace Entry

/-- The expressions in the places of a node. -/
def exprs : Entry → List ExprId
  | expr _ node => ExprKind.places.read node.kind
  | stmt _ node => StmtKind.places.read node.kind
  | decl _ node => DeclKind.places.read node.kind

/-- A node with other expressions in its places. -/
def withExprs : Entry → List ExprId → Entry
  | expr id node, es => .expr id { node with kind := ExprKind.places.write node.kind es }
  | stmt id node, es => .stmt id { node with kind := StmtKind.places.write node.kind es }
  | decl id node, es => .decl id { node with kind := DeclKind.places.write node.kind es }

@[simp] theorem id_withExprs (x : Entry) (es : List ExprId) : (x.withExprs es).id = x.id := by
  cases x <;> rfl

theorem exprs_withExprs {x : Entry} {es : List ExprId} (h : es.length = x.exprs.length) :
    (x.withExprs es).exprs = es := by
  cases x with
  | expr id node => exact ExprKind.places.read_write node.kind es h
  | stmt id node => exact StmtKind.places.read_write node.kind es h
  | decl id node => exact DeclKind.places.read_write node.kind es h

theorem withExprs_exprs (x : Entry) : x.withExprs x.exprs = x := by
  cases x with
  | expr id node => rw [withExprs, exprs, ExprKind.places.write_read]
  | stmt id node => rw [withExprs, exprs, StmtKind.places.write_read]
  | decl id node => rw [withExprs, exprs, DeclKind.places.write_read]

theorem withExprs_withExprs {x : Entry} {es fs : List ExprId} (hes : es.length = x.exprs.length)
    (hfs : fs.length = x.exprs.length) : (x.withExprs es).withExprs fs = x.withExprs fs := by
  cases x with
  | expr id node =>
    simp only [withExprs]
    rw [ExprKind.places.write_write node.kind es fs hes hfs]
  | stmt id node =>
    simp only [withExprs]
    rw [StmtKind.places.write_write node.kind es fs hes hfs]
  | decl id node =>
    simp only [withExprs]
    rw [DeclKind.places.write_write node.kind es fs hes hfs]

end Entry

/-! ## A conversion put in -/

section Wrap

variable {operand : ExprId} {q : NodeId} {x : Entry}

/-- What is neither converted nor has the converted expression for a part stays. -/
theorem Arena.Holds.wrapIntToFloat (hx : a.Holds x) (hpart : a.parentOf (.expr operand) = some q)
    (hoperand : x.id ≠ .expr operand) (hq : x.id ≠ q) : (a.wrapIntToFloat operand).2.Holds x := by
  have hcontains := hx.contains
  cases x with
  | expr id node =>
    have hx : a.expr? id = some node := hx
    have hq : some q ≠ some (.expr id) := fun heq => hq (Option.some.inj heq).symm
    have hnew : id ≠ ⟨a.exprs.size⟩ := by
      rintro rfl
      exact Nat.lt_irrefl _ hcontains
    have hne : operand ≠ id := fun heq => hoperand (by rw [heq]; rfl)
    change (a.wrapIntToFloat operand).2.expr? id = _
    rw [expr?_wrapIntToFloat hnew, hx, hpart, Option.map_some, if_neg hq, if_neg hne]
  | stmt id node =>
    have hx : a.stmt? id = some node := hx
    have hq : some q ≠ some (.stmt id) := fun heq => hq (Option.some.inj heq).symm
    change (a.wrapIntToFloat operand).2.stmt? id = _
    rw [stmt?_wrapIntToFloat, hx, hpart, Option.map_some, if_neg hq]
  | decl id node =>
    have hx : a.decl? id = some node := hx
    have hq : some q ≠ some (.decl id) := fun heq => hq (Option.some.inj heq).symm
    change (a.wrapIntToFloat operand).2.decl? id = _
    rw [decl?_wrapIntToFloat, hx, hpart, Option.map_some, if_neg hq]

/-- What has the converted expression for a part has the conversion in its place. -/
theorem Arena.Holds.wrapIntToFloat_parent (hx : a.Holds x) (hpart : a.parentOf (.expr operand) = some x.id)
    (hoperand : x.id ≠ .expr operand) :
    (a.wrapIntToFloat operand).2.Holds (x.withExprs (x.exprs.replace operand ⟨a.exprs.size⟩)) := by
  have hcontains := hx.contains
  cases x with
  | expr id node =>
    have hx : a.expr? id = some node := hx
    have hpart : a.parentOf (.expr operand) = some (.expr id) := hpart
    have hnew : id ≠ ⟨a.exprs.size⟩ := by
      rintro rfl
      exact Nat.lt_irrefl _ hcontains
    have hne : operand ≠ id := fun heq => hoperand (by rw [heq]; rfl)
    change (a.wrapIntToFloat operand).2.expr? id = _
    rw [expr?_wrapIntToFloat hnew, hx, hpart, Option.map_some, if_pos rfl, if_neg hne,
      ExprKind.places_match.replace_eq]
    rfl
  | stmt id node =>
    have hx : a.stmt? id = some node := hx
    have hpart : a.parentOf (.expr operand) = some (.stmt id) := hpart
    change (a.wrapIntToFloat operand).2.stmt? id = _
    rw [stmt?_wrapIntToFloat, hx, hpart, Option.map_some, if_pos rfl, StmtKind.places_match.replace_eq]
    rfl
  | decl id node =>
    have hx : a.decl? id = some node := hx
    have hpart : a.parentOf (.expr operand) = some (.decl id) := hpart
    change (a.wrapIntToFloat operand).2.decl? id = _
    rw [decl?_wrapIntToFloat, hx, hpart, Option.map_some, if_pos rfl, DeclKind.places_match.replace_eq]
    rfl

theorem reworked_wrapIntToFloat {node : ExprNode} (hn : a.expr? operand = some node) (hparent : node.parent = some x.id)
    (hx : a.Holds x) (hne : NodeId.expr operand ≠ x.id) :
    Reworked a (a.wrapIntToFloat operand).2 [.expr operand node, x]
      [.expr operand { node with parent := some (.expr ⟨a.exprs.size⟩) },
        .expr ⟨a.exprs.size⟩ ⟨.intToFloat operand, node.span, some x.id, some .float⟩,
        x.withExprs (x.exprs.replace operand ⟨a.exprs.size⟩)] := by
  have hpart : a.parentOf (.expr operand) = some x.id := by rw [parentOf, hn, Option.bind_some, hparent]
  have hcontains : a.Contains (.expr operand) := contains_of_parentOf hpart
  have hbetween := interposed_wrapIntToFloat hpart hx.contains
  have hnew {y : NodeId} (hy : a.Contains y) : y ≠ .expr ⟨a.exprs.size⟩ := fun heq => hbetween.new (heq ▸ hy)
  have hconverted : (a.wrapIntToFloat operand).2.expr? operand =
      some { node with parent := some (.expr ⟨a.exprs.size⟩) } := by
    have hid : operand ≠ ⟨a.exprs.size⟩ := fun heq => hnew hcontains (by rw [heq])
    have hkind : ¬ some x.id = some (NodeId.expr operand) := fun heq => hne (Option.some.inj heq).symm
    rw [expr?_wrapIntToFloat hid, hn, Option.map_some, hpart, if_neg hkind, if_pos rfl]
  have hself := expr?_wrapIntToFloat_self hn (by rw [hpart]; simpa using hnew hx.contains)
  have hroot := hx.wrapIntToFloat_parent hpart hne.symm
  rw [hparent] at hself
  obtain ⟨-, hstmts, hdecls, hprogram, hspan⟩ := a.wrapIntToFloat_sizes operand
  exact {
    has := by simpa [Has, Holds] using ⟨hconverted, hself, hroot⟩
    nodup := by
      simp only [List.map_cons, List.map_nil, Entry.id_withExprs]
      change [NodeId.expr operand, .expr ⟨a.exprs.size⟩, x.id].Nodup
      simp only [List.nodup_cons, List.mem_cons, List.not_mem_nil, or_false, not_or, not_false_eq_true,
        List.nodup_nil, and_true]
      exact ⟨⟨hnew hcontains, hne⟩, (hnew hx.contains).symm⟩
    kept := by
      intro y hy hnot
      simp only [List.map_cons, List.map_nil, List.mem_cons, List.not_mem_nil, or_false, not_or] at hnot
      exact hy.wrapIntToFloat hpart hnot.1 hnot.2
    fresh := by
      intro y hy hnot
      simp only [List.map_cons, List.map_nil, List.mem_cons, List.not_mem_nil, or_false, not_or] at hy hnot
      rcases hy with rfl | rfl | rfl
      · exact absurd rfl hnot.1
      · exact hbetween.new
      · exact absurd (x.id_withExprs _) hnot.2
    grown := fun y hy => (hbetween.contains y).2 (.inr hy)
    stmts := hstmts
    decls := hdecls
    program := hprogram
    span := hspan }

/-- A conversion comes between an expression and what this was a part of. -/
theorem Reworks.wrap {node : ExprNode} (hparent : node.parent = some x.id) (operand : ExprId) :
    Reworks N [.wrap operand] n [.expr operand node, x]
      [.expr operand { node with parent := some (.expr ⟨n⟩) },
        .expr ⟨n⟩ ⟨.intToFloat operand, node.span, some x.id, some .float⟩, x.withExprs (x.exprs.replace operand ⟨n⟩)]
      (n + 1) := by
  refine .one fun a ha => ?_
  obtain ⟨hn, hx⟩ : a.expr? operand = some node ∧ a.Holds x := by simpa [Has, Holds] using ha.has
  have hne : NodeId.expr operand ≠ x.id := by simpa [Entry.id] using ha.nodup
  have h := reworked_wrapIntToFloat hn hparent hx hne
  have hexprs := (a.wrapIntToFloat_sizes operand).1
  rw [ha.exprs] at h hexprs
  exact ⟨(Array.getElem?_eq_some_iff.1 hn).1, h, hexprs⟩

end Wrap

end VCLang
