/-
Links in a flat form that is edited in place. Each edit of a check leaves them in agreement: a conversion comes between
an expression and what this was part of, a condition is put into its loop, a library function is added with its
parameters, and all other edits leave alone what is part of what. So do the edits of a check, one after another.
-/
import VCLang.Proofs.Arena.Pushed
import VCLang.Proofs.Arena.Wrapped
import VCLang.Typing.Edit
namespace VCLang

/-! ## Edits that can be made -/

namespace Edit

/-- What an edit is about is there. -/
def Valid (a : Arena) : Edit → Prop
  | bind _ d => a.Contains (.decl d)
  | wrap operand => a.Contains (.expr operand)
  | fill loop => ∃ n init update body, a.stmt? loop = some n ∧ n.kind = .forStmt init none update body
  | _ => True

/-- Each of some edits can be made when its turn comes. -/
def AllValid (a : Arena) : List Edit → Prop
  | [] => True
  | e :: es => e.Valid a ∧ AllValid (e.apply a) es

/-- The library functions that an edit adds. -/
def installed (a : Arena) : Edit → List DeclId
  | install f => [⟨a.decls.size + f.params.length⟩]
  | _ => []

/-- The library functions that some edits add. -/
def allInstalled (a : Arena) : List Edit → List DeclId
  | [] => []
  | e :: es => e.installed a ++ allInstalled (e.apply a) es

variable {a : Arena} {es fs : List Edit}

theorem applyAll_append : applyAll a (es ++ fs) = applyAll (applyAll a es) fs := List.foldl_append

theorem allValid_append : AllValid a (es ++ fs) ↔ AllValid a es ∧ AllValid (applyAll a es) fs := by
  induction es generalizing a with
  | nil => exact ⟨fun h => ⟨trivial, h⟩, fun h => h.2⟩
  | cons e es ih =>
    change e.Valid a ∧ AllValid (e.apply a) (es ++ fs) ↔
      (e.Valid a ∧ AllValid (e.apply a) es) ∧ AllValid (applyAll (e.apply a) es) fs
    rw [ih, and_assoc]

theorem allInstalled_append : allInstalled a (es ++ fs) = allInstalled a es ++ allInstalled (applyAll a es) fs := by
  induction es generalizing a with
  | nil => rfl
  | cons e es ih =>
    change e.installed a ++ allInstalled (e.apply a) (es ++ fs) = _
    rw [ih, ← List.append_assoc]
    rfl

end Edit

namespace Arena

variable {a b : Arena} {library : List DeclId} {x y q : NodeId}

/-! ## Links that stay -/

theorem Under.of_parentOf (h : a.Under x y) (hb : ∀ x y, a.parentOf x = some y → b.parentOf x = some y) :
    b.Under x y := Relation.TransGen.mono hb x y h

/-- Where the same nodes are part of the same nodes, links agree if the names are still bound to what there is. -/
theorem Linked.of_same (hl : a.Linked library) (hcontains : ∀ x, b.Contains x ↔ a.Contains x)
    (hparent : ∀ x, b.parentOf x = a.parentOf x) (hchildren : ∀ x, b.childrenOf x = a.childrenOf x)
    (hbound : ∀ x, ∀ i ∈ b.identOf x, ∀ d ∈ i.decl, a.Contains (.decl d)) : b.Linked library where
  contains_child x y hy := (hcontains y).2 (hl.contains_child x y (by rwa [← hchildren]))
  contains_parent x y hy := (hcontains y).2 (hl.contains_parent x y (by rwa [← hparent]))
  contains_bound x i hi d hd := (hcontains _).2 (hbound x i hi d hd)
  contains_library d hd := (hcontains _).2 (hl.contains_library d hd)
  parent_of_child x y hy := by
    rw [hparent, hl.parent_of_child x y (by rwa [← hchildren])]
  child_of_parent x y hy := by
    rw [hchildren, hl.child_of_parent x y (by rwa [← hparent])]
  orphan x hx hne := by
    rw [hparent, hl.orphan x ((hcontains x).1 hx) hne]
  under_program x hx hne := by
    rw [hparent]
    exact (hl.under_program x ((hcontains x).1 hx) hne).imp_left (·.of_parentOf fun x y h => (hparent x).trans h)

theorem contains_modifyExpr (a : Arena) (id : ExprId) (f : ExprNode → ExprNode) (x : NodeId) :
    (a.modifyExpr id f).Contains x ↔ a.Contains x := by
  cases x <;> simp [Contains, modifyExpr]

theorem contains_modifyDecl (a : Arena) (id : DeclId) (f : DeclNode → DeclNode) (x : NodeId) :
    (a.modifyDecl id f).Contains x ↔ a.Contains x := by
  cases x <;> simp [Contains, modifyDecl]

theorem expr?_modifyExpr (a : Arena) (id id' : ExprId) (f : ExprNode → ExprNode) :
    (a.modifyExpr id f).expr? id' = (a.expr? id').map fun n => if id = id' then f n else n := by
  have hsame : id.index = id'.index ↔ id = id' := ⟨fun h => congrArg ExprId.mk h, fun h => by rw [h]⟩
  simp only [← hsame]
  exact getElem?_modify_eq_map ..

theorem decl?_modifyDecl (a : Arena) (id id' : DeclId) (f : DeclNode → DeclNode) :
    (a.modifyDecl id f).decl? id' = (a.decl? id').map fun n => if id = id' then f n else n := by
  have hsame : id.index = id'.index ↔ id = id' := ⟨fun h => congrArg DeclId.mk h, fun h => by rw [h]⟩
  simp only [← hsame]
  exact getElem?_modify_eq_map ..

/-- An expression is changed in what is neither a part of it nor what it is part of. -/
theorem Linked.modifyExpr {f : ExprNode → ExprNode} (hl : a.Linked library) (id : ExprId)
    (hparent : ∀ n, (f n).parent = n.parent) (hchildren : ∀ n, (f n).kind.children = n.kind.children)
    (hbound : ∀ n, ∀ i ∈ (f n).kind.ident?, ∀ d ∈ i.decl, (∃ j ∈ n.kind.ident?, d ∈ j.decl) ∨ a.Contains (.decl d)) :
    (a.modifyExpr id f).Linked library := by
  refine hl.of_same (contains_modifyExpr a id f) (fun x => ?_) (fun x => ?_) fun x i hi d hd => ?_
  · cases x with
    | expr id' =>
      rw [parentOf, expr?_modifyExpr, parentOf, Option.bind_map]
      congr 1
      funext n
      rw [Function.comp_apply, apply_ite ExprNode.parent, hparent, ite_self]
    | _ => rfl
  · cases x with
    | expr id' =>
      rw [childrenOf, expr?_modifyExpr, childrenOf]
      cases a.expr? id' with
      | none => rfl
      | some n => split_ifs <;> simp [hchildren]
    | _ => rfl
  · cases x with
    | program | stmt => cases hi
    | decl id' => exact hl.contains_bound (.decl id') i hi d hd
    | expr id' =>
      rw [identOf, expr?_modifyExpr, Option.bind_map] at hi
      obtain ⟨n, hn, hi⟩ := Option.bind_eq_some_iff.1 hi
      have hold {j : Ident} (hj : j ∈ n.kind.ident?) (hd : d ∈ j.decl) : a.Contains (.decl d) :=
        hl.contains_bound (.expr id') j (Option.bind_eq_some_iff.2 ⟨n, hn, hj⟩) d hd
      rw [Function.comp_apply] at hi
      split_ifs at hi
      · rcases hbound n i hi d hd with ⟨j, hj, hd⟩ | hd
        · exact hold hj hd
        · exact hd
      · exact hold hi hd

/-- A declaration is changed in what is neither a part of it, nor what it is part of, nor its name. -/
theorem Linked.modifyDecl {f : DeclNode → DeclNode} (hl : a.Linked library) (id : DeclId)
    (hparent : ∀ n, (f n).parent = n.parent) (hchildren : ∀ n, (f n).kind.children = n.kind.children)
    (hident : ∀ n, (f n).ident = n.ident) : (a.modifyDecl id f).Linked library := by
  refine hl.of_same (contains_modifyDecl a id f) (fun x => ?_) (fun x => ?_) fun x i hi d hd => ?_
  · cases x with
    | decl id' =>
      rw [parentOf, decl?_modifyDecl, parentOf, Option.bind_map]
      congr 1
      funext n
      rw [Function.comp_apply, apply_ite DeclNode.parent, hparent, ite_self]
    | _ => rfl
  · cases x with
    | decl id' =>
      rw [childrenOf, decl?_modifyDecl, childrenOf]
      cases a.decl? id' with
      | none => rfl
      | some n => split_ifs <;> simp [hchildren]
    | _ => rfl
  · refine hl.contains_bound x i ?_ d hd
    cases x with
    | decl id' =>
      rw [identOf, decl?_modifyDecl, Option.map_map] at hi
      have hsame : DeclNode.ident ∘ (fun n => if id = id' then f n else n) = DeclNode.ident := by
        funext n
        rw [Function.comp_apply, apply_ite DeclNode.ident, hident, ite_self]
      change i ∈ Option.map (DeclNode.ident ∘ _) (a.decl? id') at hi
      rwa [hsame] at hi
    | _ => exact hi

/-! ## A condition put into a loop -/

/-- A loop gets a condition that has the next number and is linked to the loop at once. -/
theorem fillCondition_eq (a : Arena) (loop : StmtId) : a.fillCondition loop =
    { a with
      exprs := a.exprs.push
        ⟨.literal (.boolean "true"), ((a.stmt? loop).map (·.span)).getD .dummy, some (.stmt loop), none⟩
      stmts := a.stmts.modify loop.index fun n => { n with kind := n.kind.fillCondition ⟨a.exprs.size⟩ } } := by
  unfold fillCondition pushExpr
  simp only [ExprKind.children, List.map_nil, adopt, List.foldl_nil, setParent, modify_push rfl]

theorem expr?_fillCondition (a : Arena) (loop : StmtId) (id : ExprId) : (a.fillCondition loop).expr? id =
    if id = ⟨a.exprs.size⟩ then
      some ⟨.literal (.boolean "true"), ((a.stmt? loop).map (·.span)).getD .dummy, some (.stmt loop), none⟩
    else a.expr? id := by
  have hsame : id.index = a.exprs.size ↔ id = ⟨a.exprs.size⟩ := ⟨fun h => congrArg ExprId.mk h, fun h => by rw [h]⟩
  simp only [fillCondition_eq, expr?, Array.getElem?_push, hsame]

theorem stmt?_fillCondition (a : Arena) (loop id : StmtId) : (a.fillCondition loop).stmt? id =
    (a.stmt? id).map fun n =>
      if loop = id then { n with kind := n.kind.fillCondition ⟨a.exprs.size⟩ } else n := by
  have hsame : loop.index = id.index ↔ loop = id := ⟨fun h => congrArg StmtId.mk h, fun h => by rw [h]⟩
  simp only [fillCondition_eq, stmt?, getElem?_modify_eq_map, hsame]

theorem decl?_fillCondition (a : Arena) (loop : StmtId) (id : DeclId) :
    (a.fillCondition loop).decl? id = a.decl? id := by
  rw [fillCondition_eq]
  rfl

theorem program_fillCondition (a : Arena) (loop : StmtId) : (a.fillCondition loop).program = a.program := by
  rw [fillCondition_eq]

theorem contains_fillCondition (a : Arena) (loop : StmtId) (x : NodeId) :
    (a.fillCondition loop).Contains x ↔ x = .expr ⟨a.exprs.size⟩ ∨ a.Contains x := by
  rw [fillCondition_eq]
  cases x with
  | expr id =>
    have hnew : NodeId.expr id = .expr ⟨a.exprs.size⟩ ↔ id.index = a.exprs.size :=
      ⟨fun h => by cases h; rfl, fun h => congrArg (fun i => NodeId.expr ⟨i⟩) h⟩
    rw [hnew]
    simp only [Contains, Array.size_push]
    omega
  | _ => simp [Contains]

/-- Of two flat forms the second has an expression more, which is a part of some node and has no parts itself. -/
structure Attached (a b : Arena) (w : ExprId) (q : NodeId) : Prop where
  new : ¬ a.Contains (.expr w)
  holder : a.Contains q
  contains : ∀ x, b.Contains x ↔ x = .expr w ∨ a.Contains x
  parentOf : ∀ x, b.parentOf x = if x = .expr w then some q else a.parentOf x
  parts : b.childrenOf (.expr w) = []
  attached : ∃ front back, a.childrenOf q = front ++ back ∧ b.childrenOf q = front ++ .expr w :: back
  kept : ∀ x, x ≠ .expr w → x ≠ q → b.childrenOf x = a.childrenOf x
  identOf : ∀ x, b.identOf x = if x = .expr w then none else a.identOf x

theorem attached_fillCondition {loop : StmtId} {n : StmtNode} {init update : Option ExprId} {body : StmtId}
    (hn : a.stmt? loop = some n) (hkind : n.kind = .forStmt init none update body) :
    Attached a (a.fillCondition loop) ⟨a.exprs.size⟩ (.stmt loop) where
  new := Nat.lt_irrefl _
  holder := (Array.getElem?_eq_some_iff.1 hn).1
  contains := contains_fillCondition a loop
  parentOf x := by
    cases x with
    | program => rfl
    | decl id => rw [Arena.parentOf, decl?_fillCondition, if_neg NodeId.noConfusion, Arena.parentOf]
    | stmt id =>
      rw [Arena.parentOf, stmt?_fillCondition, Option.bind_map, if_neg NodeId.noConfusion, Arena.parentOf]
      congr 1
      funext m
      rw [Function.comp_apply, apply_ite StmtNode.parent, ite_self]
    | expr id =>
      rw [Arena.parentOf, expr?_fillCondition]
      simp only [NodeId.expr.injEq]
      split_ifs <;> rfl
  parts := by
    rw [childrenOf, expr?_fillCondition, if_pos rfl]
    rfl
  attached := by
    refine ⟨init.toList.map .expr, update.toList.map .expr ++ [.stmt body], ?_, ?_⟩
    · simp [childrenOf, hn, hkind, StmtKind.children]
    · simp [childrenOf, stmt?_fillCondition, hn, hkind, StmtKind.fillCondition, StmtKind.children]
  kept x hx hq := by
    cases x with
    | program => rw [childrenOf, program_fillCondition, childrenOf]
    | decl id => rw [childrenOf, decl?_fillCondition, childrenOf]
    | stmt id =>
      have hne : loop ≠ id := fun heq => hq (by rw [heq])
      simp only [childrenOf, stmt?_fillCondition, if_neg hne, Option.map_id']
    | expr id =>
      have hne : id ≠ ⟨a.exprs.size⟩ := fun heq => hx (by rw [heq])
      simp only [childrenOf, expr?_fillCondition, if_neg hne]
  identOf x := by
    cases x with
    | program | stmt => rfl
    | decl id => rw [Arena.identOf, decl?_fillCondition, if_neg NodeId.noConfusion, Arena.identOf]
    | expr id =>
      rw [Arena.identOf, expr?_fillCondition]
      simp only [NodeId.expr.injEq]
      split_ifs <;> rfl

namespace Attached

variable {w : ExprId}

theorem contains_kept (h : Attached a b w q) (hx : a.Contains x) : b.Contains x := (h.contains x).2 (.inr hx)

theorem parentOf_kept (h : Attached a b w q) (hx : a.parentOf x = some y) : b.parentOf x = some y := by
  have hne : x ≠ .expr w := fun heq => h.new (heq ▸ contains_of_parentOf hx)
  rw [h.parentOf, if_neg hne, hx]

theorem mem_childrenOf (h : Attached a b w q) :
    y ∈ b.childrenOf x ↔ (x = q ∧ y = .expr w) ∨ y ∈ a.childrenOf x := by
  by_cases hx : x = .expr w
  · subst hx
    have hnone : y ∉ a.childrenOf (.expr w) := fun hy => h.new (contains_of_childrenOf hy)
    have hne : NodeId.expr w ≠ q := fun heq => h.new (heq ▸ h.holder)
    simp [h.parts, hnone, hne]
  by_cases hxq : x = q
  · subst hxq
    obtain ⟨front, back, hold, hnew⟩ := h.attached
    rw [hnew, hold]
    simp only [List.mem_append, List.mem_cons]
    tauto
  · rw [h.kept x hx hxq]
    tauto

theorem parent_of_child (h : Attached a b w q) (hl : a.Linked library) (hy : y ∈ b.childrenOf x) :
    b.parentOf y = some x := by
  rcases h.mem_childrenOf.1 hy with ⟨rfl, rfl⟩ | hy
  · rw [h.parentOf, if_pos rfl]
  · exact h.parentOf_kept (hl.parent_of_child x y hy)

/-- The expression stands once in the node that it is a part of, and nothing else stands there more or less often. -/
theorem child_of_parent (h : Attached a b w q) (hl : a.Linked library) (hy : b.parentOf y = some x) :
    (b.childrenOf x).count y = 1 := by
  obtain ⟨front, back, hold, hnew⟩ := h.attached
  have hunlisted : NodeId.expr w ∉ front ++ back := fun hw =>
    h.new (contains_of_parentOf (hl.parent_of_child q _ (hold ▸ hw)))
  rw [h.parentOf] at hy
  split_ifs at hy with hyw
  · cases hy
    rw [List.mem_append, not_or] at hunlisted
    rw [hnew, hyw, List.count_append, List.count_cons_self, List.count_eq_zero.2 hunlisted.1,
      List.count_eq_zero.2 hunlisted.2]
  · rw [← hl.child_of_parent x y hy]
    by_cases hxq : x = q
    · rw [hxq, hnew, hold, List.count_append, List.count_append, List.count_cons_of_ne (Ne.symm hyw)]
    · rw [h.kept x (fun heq => h.new (heq ▸ hl.contains_parent y x hy)) hxq]

/-- Links agree with an expression more, if that is under the program. -/
theorem linked (h : Attached a b w q) (hl : a.Linked library) (hq : a.Under q .program) : b.Linked library where
  contains_child x y hy := contains_of_parentOf (h.parent_of_child hl hy)
  contains_parent x y hy := by
    rw [h.parentOf] at hy
    split_ifs at hy
    · cases hy
      exact h.contains_kept h.holder
    · exact h.contains_kept (hl.contains_parent x y hy)
  contains_bound x i hi d hd := by
    rw [h.identOf] at hi
    split_ifs at hi
    · cases hi
    · exact h.contains_kept (hl.contains_bound x i hi d hd)
  contains_library d hd := h.contains_kept (hl.contains_library d hd)
  parent_of_child x y hy := h.parent_of_child hl hy
  child_of_parent x y hy := h.child_of_parent hl hy
  orphan x hx hne := by
    rw [h.parentOf]
    split_ifs with hxw
    · simp [hxw]
    · exact hl.orphan x (((h.contains x).1 hx).resolve_left hxw) hne
  under_program x hx hne := by
    rcases (h.contains x).1 hx with rfl | hx
    · have hwq : b.parentOf (.expr w) = some q := by rw [h.parentOf, if_pos rfl]
      exact .inl (.head hwq (hq.of_parentOf fun x y hx => h.parentOf_kept hx))
    · rcases hl.under_program x hx hne with hunder | ⟨d, hd, p, hp, hpd⟩
      · exact .inl (hunder.of_parentOf fun x y hx => h.parentOf_kept hx)
      · exact .inr ⟨d, hd, p, hp, hpd.imp_right h.parentOf_kept⟩

end Attached

end Arena

/-! ## A library function added -/

/-- A library function as it is added where there are `first` declarations. -/
def Library.Entry.prototype (first : Nat) (f : Library.Entry) : Prototype :=
  ⟨⟨first + f.params.length⟩, .unbound f.name .dummy, f.ret, .dummy, Library.params first f.params⟩

theorem laid_installParams (a : Arena) (i : Nat) (tys : List Ty) (parent : NodeId) :
    let ps := tys.mapIdx fun j ty => (⟨⟨a.decls.size + j⟩, .unbound s!"i{i + j}" .dummy, ty, .dummy⟩ : Param)
    (a.installParams i tys).1 = ps.map Param.id ∧ Laid a (a.installParams i tys).2 (ps.map (Param.entry parent)) := by
  induction tys generalizing a i with
  | nil => exact ⟨rfl, .nil a⟩
  | cons ty tys ih =>
    intro ps
    have hpush : Laid a (a.pushDecl .param (.unbound s!"i{i}" .dummy) ty .dummy).2
        [.decl ⟨a.decls.size⟩ ⟨.param, .unbound s!"i{i}" .dummy, ty, .dummy, some parent⟩] :=
      laid_pushDecl a ty .dummy parent rfl rfl
    have hsize : (a.pushDecl .param (.unbound s!"i{i}" .dummy) ty .dummy).2.decls.size = a.decls.size + 1 :=
      a.pushDecl_size ..
    obtain ⟨hids, hlaid⟩ := ih (a.pushDecl .param (.unbound s!"i{i}" .dummy) ty .dummy).2 (i + 1)
    rw [hsize] at hids hlaid
    simp only [Nat.add_assoc, Nat.add_comm 1] at hids hlaid
    have hps : ps = ⟨⟨a.decls.size⟩, .unbound s!"i{i}" .dummy, ty, .dummy⟩ :: tys.mapIdx fun j ty =>
        (⟨⟨a.decls.size + (j + 1)⟩, .unbound s!"i{i + (j + 1)}" .dummy, ty, .dummy⟩ : Param) := List.mapIdx_cons
    rw [hps, List.map_cons, List.map_cons]
    exact ⟨congrArg _ hids, hpush.append hlaid⟩

/-- A library function is added behind its parameters. -/
theorem laid_install (a : Arena) (f : Library.Entry) :
    Laid a (a.install f) (f.prototype a.decls.size).entries := by
  obtain ⟨hids, hlaid⟩ := laid_installParams a 0 f.params (.decl ⟨a.decls.size + f.params.length⟩)
  simp only [Nat.zero_add] at hids hlaid
  have hsize := hlaid.sizes.2.2
  rw [declIds_params, List.length_map, List.length_mapIdx] at hsize
  refine hlaid.append (.push ?_ ⟨rfl, rfl⟩ ?_)
  · exact congrArg DeclId.mk hsize.symm
  · have hinstall : a.install f = ((a.installParams 0 f.params).2.pushDecl (.func (a.installParams 0 f.params).1 none
        false) (.unbound f.name .dummy) f.ret .dummy).2 := rfl
    rw [hinstall, hids]
    exact .nil _

theorem decls_size_install (a : Arena) (f : Library.Entry) :
    (a.install f).decls.size = a.decls.size + f.params.length + 1 := by
  rw [(laid_install a f).sizes.2.2, Prototype.entries, declIds_append, declIds_params]
  simp [Library.Entry.prototype, Library.params, declIds, Entry.decl?, Nat.add_assoc]

section Installs

open Edit

/-- Library functions that are added one after another are numbered in order. -/
theorem laid_installs (a : Arena) (fs : List Library.Entry) :
    Laid a (applyAll a (fs.map .install)) ((Library.number a.decls.size fs).flatMap Prototype.entries) := by
  induction fs generalizing a with
  | nil => exact .nil a
  | cons f fs ih =>
    have hmore := ih (a.install f)
    rw [decls_size_install] at hmore
    exact (laid_install a f).append hmore

theorem allValid_installs (a : Arena) (fs : List Library.Entry) : AllValid a (fs.map .install) := by
  induction fs generalizing a with
  | nil => trivial
  | cons f fs ih => exact ⟨trivial, ih (a.install f)⟩

theorem allInstalled_installs (a : Arena) (fs : List Library.Entry) :
    allInstalled a (fs.map .install) = (Library.number a.decls.size fs).map (·.id) := by
  induction fs generalizing a with
  | nil => rfl
  | cons f fs ih =>
    have hmore := ih (a.install f)
    rw [decls_size_install] at hmore
    exact congrArg _ hmore

/-- An edit adds no library function without a declaration. -/
theorem decls_size_apply (a : Arena) (e : Edit) :
    a.decls.size + (e.installed a).length ≤ (e.apply a).decls.size := by
  cases e with
  | install f =>
    change a.decls.size + 1 ≤ (a.install f).decls.size
    rw [decls_size_install]
    omega
  | wrap operand => exact Nat.le_of_eq (a.wrapIntToFloat_sizes operand).2.2.1.symm
  | fill loop =>
    exact Nat.le_of_eq (congrArg (·.decls.size) (a.fillCondition_eq loop)).symm
  | resize id ty | setReturns id hasReturn => exact Nat.le_of_eq Array.size_modify.symm
  | _ => exact Nat.le_refl _

theorem decls_size_applyAll (a : Arena) (es : List Edit) :
    a.decls.size + (allInstalled a es).length ≤ (applyAll a es).decls.size := by
  induction es generalizing a with
  | nil => exact Nat.le_refl _
  | cons e es ih =>
    have hfirst := decls_size_apply a e
    have hmore := ih (e.apply a)
    change _ ≤ (applyAll (e.apply a) es).decls.size
    rw [allInstalled, List.length_append]
    omega

/-- Edits that add no declaration add no library function. -/
theorem allInstalled_eq_nil {a : Arena} {es : List Edit} (h : (applyAll a es).decls.size = a.decls.size) :
    allInstalled a es = [] := by
  have hle := decls_size_applyAll a es
  exact List.eq_nil_of_length_eq_zero (by omega)

end Installs

namespace Arena

variable {a b : Arena} {library : List DeclId} {x y : NodeId}

/-- A node that stays has the links that it had. -/
theorem links_of_kept (hkept : ∀ e, a.Holds e → b.Holds e) (hprogram : b.program = a.program) (hx : a.Contains x) :
    b.parentOf x = a.parentOf x ∧ b.childrenOf x = a.childrenOf x ∧ b.identOf x = a.identOf x := by
  by_cases hne : x = .program
  · subst hne
    exact ⟨rfl, by rw [childrenOf, hprogram, childrenOf], rfl⟩
  · obtain ⟨e, he, rfl⟩ := exists_holds hx hne
    have he' := hkept e he
    exact ⟨by rw [he'.parentOf, he.parentOf], by rw [he'.childrenOf, he.childrenOf], by rw [he'.identOf, he.identOf]⟩

/-- Of two flat forms the second has a function more that is part of nothing and has its parameters for parts. -/
structure Installed (a b : Arena) (f : Prototype) : Prop where
  new : ¬ a.Contains (.decl f.id)
  newParam : ∀ p ∈ f.params, ¬ a.Contains (.decl p.id)
  contains : ∀ x, b.Contains x ↔ a.Contains x ∨ x = .decl f.id ∨ ∃ p ∈ f.params, x = .decl p.id
  kept : ∀ x, a.Contains x →
    b.parentOf x = a.parentOf x ∧ b.childrenOf x = a.childrenOf x ∧ b.identOf x = a.identOf x
  orphan : b.parentOf (.decl f.id) = none
  parts : b.childrenOf (.decl f.id) = f.params.map fun p => .decl p.id
  param : ∀ p ∈ f.params, b.parentOf (.decl p.id) = some (.decl f.id) ∧ b.childrenOf (.decl p.id) = []
  unbound : ∀ x, ¬ a.Contains x → ∀ i ∈ b.identOf x, i.decl = none
  nodup : (f.params.map fun p => NodeId.decl p.id).Nodup

theorem installed_of_laid {f : Prototype} (hlaid : Laid a b f.entries) : Installed a b f := by
  have hplanted := hlaid.planted f.forest
  have hnew {e : Entry} (he : e ∈ f.entries) : ¬ a.Contains e.id := (hplanted.added e he).1
  have hhas := hlaid.has_of_orphans f.forest
  have hroot := hhas _ f.root_mem
  have hparam {p : Param} (hp : p ∈ f.params) : b.Holds (p.entry (.decl f.id)) := hhas _ (Prototype.param_mem hp)
  have hcontains (x : NodeId) : b.Contains x ↔ a.Contains x ∨ x = .decl f.id ∨ ∃ p ∈ f.params, x = .decl p.id := by
    rw [hlaid.contains]
    simp only [Prototype.entries, List.mem_append, List.mem_map, List.mem_singleton, or_and_right, exists_or,
      exists_exists_and_eq_and, exists_eq_left]
    simp only [Param.entry, Entry.id, eq_comm (b := x)]
    exact or_congr_right or_comm
  have hids : (declIds f.entries).Nodup := by
    have hrange : (List.range a.decls.size ++ declIds f.entries).Nodup := hlaid.decls ▸ List.nodup_range
    exact (List.nodup_append.1 hrange).2.1
  exact {
    new := hnew f.root_mem
    newParam := fun p hp => hnew (Prototype.param_mem hp)
    contains := hcontains
    kept := fun x hx => links_of_kept hplanted.kept hlaid.program.1 hx
    orphan := hroot.parentOf
    parts := hroot.childrenOf.trans (by simp [Entry.children, DeclKind.children, Function.comp_def])
    param := fun p hp => ⟨(hparam hp).parentOf, (hparam hp).childrenOf⟩
    unbound := by
      intro x hx i hi
      obtain ⟨e, he, rfl, -⟩ := holds_of_identOf hi
      rcases ((hcontains e.id).1 he.contains).resolve_left hx with hid | ⟨p, hp, hid⟩
      · have hident : b.identOf (.decl f.id) = some f.ident := hroot.identOf
        rw [hid, hident] at hi
        cases hi
        exact (hlaid.fresh _ f.root_mem).1
      · have hident : b.identOf (.decl p.id) = some p.ident := (hparam hp).identOf
        rw [hid, hident] at hi
        cases hi
        exact (hlaid.fresh _ (Prototype.param_mem hp)).1
    nodup := by
      rw [Prototype.entries, declIds_append, declIds_params] at hids
      have hparams := List.pairwise_map.1 (List.nodup_append.1 hids).1
      refine List.pairwise_map.2 (hparams.imp fun hne heq => hne ?_)
      exact congrArg DeclId.index (NodeId.decl.inj heq) }

namespace Installed

variable {f : Prototype}

theorem contains_kept (h : Installed a b f) (hx : a.Contains x) : b.Contains x := (h.contains x).2 (.inl hx)

/-- What is part of what has stayed, and the parameters are part of the function. -/
theorem parentOf_iff (h : Installed a b f) : b.parentOf x = some y ↔
    a.parentOf x = some y ∨ (y = .decl f.id ∧ ∃ p ∈ f.params, x = .decl p.id) := by
  constructor
  · intro hy
    rcases (h.contains x).1 (contains_of_parentOf hy) with hx | rfl | ⟨p, hp, rfl⟩
    · rw [(h.kept x hx).1] at hy
      exact .inl hy
    · rw [h.orphan] at hy
      cases hy
    · rw [(h.param p hp).1] at hy
      cases hy
      exact .inr ⟨rfl, p, hp, rfl⟩
  · rintro (hy | ⟨rfl, p, hp, rfl⟩)
    · rw [(h.kept x (contains_of_parentOf hy)).1, hy]
    · exact (h.param p hp).1

theorem mem_childrenOf (h : Installed a b f) : y ∈ b.childrenOf x ↔
    y ∈ a.childrenOf x ∨ (x = .decl f.id ∧ ∃ p ∈ f.params, y = .decl p.id) := by
  constructor
  · intro hy
    rcases (h.contains x).1 (contains_of_childrenOf hy) with hx | rfl | ⟨p, hp, rfl⟩
    · rw [(h.kept x hx).2.1] at hy
      exact .inl hy
    · rw [h.parts] at hy
      obtain ⟨p, hp, rfl⟩ := List.mem_map.1 hy
      exact .inr ⟨rfl, p, hp, rfl⟩
    · rw [(h.param p hp).2] at hy
      cases hy
  · rintro (hy | ⟨rfl, p, hp, rfl⟩)
    · rwa [(h.kept x (contains_of_childrenOf hy)).2.1]
    · rw [h.parts]
      exact List.mem_map_of_mem hp

theorem parentOf_kept (h : Installed a b f) (hx : a.parentOf x = some y) : b.parentOf x = some y :=
  h.parentOf_iff.2 (.inl hx)

theorem child_of_parent (h : Installed a b f) (hl : a.Linked library) (hy : b.parentOf y = some x) :
    (b.childrenOf x).count y = 1 := by
  rcases h.parentOf_iff.1 hy with hy | ⟨rfl, p, hp, rfl⟩
  · rw [(h.kept x (hl.contains_parent y x hy)).2.1, hl.child_of_parent x y hy]
  · rw [h.parts]
    exact List.count_eq_one_of_mem h.nodup (List.mem_map.2 ⟨p, hp, rfl⟩)

theorem orphan_iff (h : Installed a b f) (hl : a.Linked library) (hx : b.Contains x) (hne : x ≠ .program) :
    b.parentOf x = none ↔ (∃ d ∈ library, x = .decl d) ∨ x = .decl f.id := by
  rcases (h.contains x).1 hx with hx | rfl | ⟨p, hp, rfl⟩
  · have hnew : x ≠ .decl f.id := fun heq => h.new (heq ▸ hx)
    rw [(h.kept x hx).1, hl.orphan x hx hne, or_iff_left hnew]
  · exact iff_of_true h.orphan (.inr rfl)
  · have hlibrary : ¬ ∃ d ∈ library, NodeId.decl p.id = .decl d := by
      rintro ⟨d, hd, heq⟩
      exact h.newParam p hp (heq ▸ hl.contains_library d hd)
    have hroot : NodeId.decl p.id ≠ .decl f.id := by
      intro heq
      have hparent := (h.param p hp).1
      rw [heq, h.orphan] at hparent
      cases hparent
    rw [(h.param p hp).1]
    exact iff_of_false nofun (not_or.2 ⟨hlibrary, hroot⟩)

/-- Links agree with a library function more. -/
theorem linked (h : Installed a b f) (hl : a.Linked library) : b.Linked (library ++ [f.id]) where
  contains_child x y hy := by
    rcases h.mem_childrenOf.1 hy with hy | ⟨-, hy⟩
    · exact h.contains_kept (hl.contains_child x y hy)
    · exact (h.contains y).2 (.inr (.inr hy))
  contains_parent x y hy := by
    rcases h.parentOf_iff.1 hy with hy | ⟨hy, -⟩
    · exact h.contains_kept (hl.contains_parent x y hy)
    · exact (h.contains y).2 (.inr (.inl hy))
  contains_bound x i hi d hd := by
    by_cases hx : a.Contains x
    · rw [(h.kept x hx).2.2] at hi
      exact h.contains_kept (hl.contains_bound x i hi d hd)
    · rw [h.unbound x hx i hi] at hd
      cases hd
  contains_library d hd := by
    rcases List.mem_append.1 hd with hd | hd
    · exact h.contains_kept (hl.contains_library d hd)
    · exact (h.contains _).2 (.inr (.inl (by rw [List.mem_singleton.1 hd])))
  parent_of_child x y hy := h.parentOf_iff.2 ((h.mem_childrenOf.1 hy).imp_left (hl.parent_of_child x y))
  child_of_parent x y hy := h.child_of_parent hl hy
  orphan x hx hne := by
    simp only [List.mem_append, List.mem_singleton, or_and_right, exists_or, exists_eq_left]
    exact h.orphan_iff hl hx hne
  under_program x hx hne := by
    rcases (h.contains x).1 hx with hx | rfl | ⟨p, hp, rfl⟩
    · rcases hl.under_program x hx hne with hunder | ⟨d, hd, p, hp, hpd⟩
      · exact .inl (hunder.of_parentOf fun x y hx => h.parentOf_kept hx)
      · exact .inr ⟨d, List.mem_append_left _ hd, p, hp, hpd.imp_right h.parentOf_kept⟩
    · exact .inr ⟨f.id, by simp, f.id, rfl, .inl rfl⟩
    · exact .inr ⟨f.id, by simp, p.id, rfl, .inr (h.param p hp).1⟩

end Installed

end Arena

/-! ## One edit and many -/

namespace Edit

open Arena

variable {a : Arena} {library : List DeclId}

/-- An edit that can be made leaves the links in agreement, with the library functions that it adds. -/
theorem linked_apply (hl : a.Linked library) {e : Edit} (h : e.Valid a) :
    (e.apply a).Linked (library ++ e.installed a) := by
  have hkeeps (hb : (e.apply a).Linked library) (hnone : e.installed a = []) :
      (e.apply a).Linked (library ++ e.installed a) := by rwa [hnone, List.append_nil]
  cases e with
  | install f => exact (installed_of_laid (laid_install a f)).linked hl
  | bind id d =>
    refine hkeeps (hl.modifyExpr id (fun n => rfl) (fun n => ?_) fun n i hi c hc => ?_) rfl
    · cases n.kind <;> rfl
    · right
      cases hk : n.kind <;> simp only [hk, ExprKind.bindTo, ExprKind.ident?, Option.mem_def, Option.some.injEq,
        reduceCtorEq] at hi
      all_goals
        subst hi
        cases hc
        exact h
  | respell id spelling =>
    refine hkeeps (hl.modifyExpr id (fun n => rfl) (fun n => ?_) fun n i hi c hc => .inl ⟨i, ?_, hc⟩) rfl
    · cases n.kind <;> rfl
    · cases hk : n.kind <;> rw [hk] at hi <;> exact hi
  | setType id ty =>
    exact hkeeps (hl.modifyExpr id (fun n => rfl) (fun n => rfl) fun n i hi c hc => .inl ⟨i, hi, hc⟩) rfl
  | wrap operand => exact hkeeps (hl.wrapIntToFloat h) rfl
  | fill loop =>
    obtain ⟨n, init, update, body, hn, hkind⟩ := h
    have hloop : a.Contains (.stmt loop) := (Array.getElem?_eq_some_iff.1 hn).1
    exact hkeeps ((attached_fillCondition hn hkind).linked hl (hl.under hloop NodeId.noConfusion fun d => NodeId.noConfusion)) rfl
  | resize id ty => exact hkeeps (hl.modifyDecl id (fun n => rfl) (fun n => rfl) fun n => rfl) rfl
  | setReturns id hasReturn =>
    refine hkeeps (hl.modifyDecl id (fun n => rfl) (fun n => ?_) fun n => rfl) rfl
    cases n.kind <;> rfl

/-- So do edits one after another. -/
theorem linked_applyAll (hl : a.Linked library) {es : List Edit} (h : AllValid a es) :
    (applyAll a es).Linked (library ++ allInstalled a es) := by
  induction es generalizing a library with
  | nil =>
    rw [allInstalled, List.append_nil]
    exact hl
  | cons e es ih =>
    rw [allInstalled, ← List.append_assoc]
    exact ih (linked_apply hl h.1) h.2

end Edit

end VCLang
