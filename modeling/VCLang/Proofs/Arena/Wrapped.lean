/-
A conversion that is put in the place of an expression. The links that are made for it agree with those that are
there: the tree has one node more, between the expression and what it was part of.
-/
import VCLang.Proofs.Arena.Links
namespace VCLang

/-! ## Lists of parts -/

/-- A value that is in a list once is replaced at its place. -/
theorem exists_replace {α : Type} [DecidableEq α] {l : List α} {old : α} (hl : l.Nodup) (h : old ∈ l) (new : α) :
    ∃ front back, l = front ++ old :: back ∧ old ∉ front ++ back ∧ l.replace old new = front ++ new :: back := by
  obtain ⟨front, back, rfl⟩ := List.append_of_mem h
  obtain ⟨-, hback, hfront⟩ := List.nodup_append.1 hl
  have hnotFront : old ∉ front := fun hmem => hfront old hmem old List.mem_cons_self rfl
  have hnotBack : old ∉ back := (List.nodup_cons.1 hback).1
  refine ⟨front, back, rfl, by simp [hnotFront, hnotBack], ?_⟩
  rw [List.replace_append_right hnotFront, List.replace_cons_self]

theorem mem_replace_iff {α : Type} [DecidableEq α] {l : List α} {old x : α} (hl : l.Nodup) (h : old ∈ l) (new : α) :
    x ∈ l.replace old new ↔ x = new ∨ (x ∈ l ∧ x ≠ old) := by
  obtain ⟨front, back, hfrom, hnot, hto⟩ := exists_replace hl h new
  rw [hto, hfrom]
  have hne (hx : x ∈ front ++ back) : x ≠ old := ne_of_mem_of_not_mem hx hnot
  simp only [List.mem_append, List.mem_cons] at hne ⊢
  tauto

theorem nodup_replace {α : Type} [DecidableEq α] {l : List α} {old new : α} (hl : l.Nodup) (hnew : new ∉ l) :
    (l.replace old new).Nodup := by
  by_cases h : old ∈ l
  · obtain ⟨front, back, rfl, -, hto⟩ := exists_replace hl h new
    rw [hto]
    have hperm (x : α) : (front ++ x :: back).Perm (x :: (front ++ back)) := List.perm_middle
    rw [(hperm _).mem_iff, List.mem_cons, not_or] at hnew
    exact (hperm _).nodup_iff.2 (List.nodup_cons.2 ⟨hnew.2, ((hperm _).nodup_iff.1 hl).of_cons⟩)
  · rwa [List.replace_of_not_mem h]

theorem map_replace {α β : Type} [DecidableEq α] [DecidableEq β] {f : α → β} (hf : Function.Injective f) (l : List α)
    (old new : α) : (l.replace old new).map f = (l.map f).replace (f old) (f new) := by
  induction l with
  | nil => rfl
  | cons x l ih =>
    by_cases hx : old = x
    · subst hx
      simp
    · have hne : (old == x) = false := beq_false_of_ne hx
      have hne' : (f old == f x) = false := beq_false_of_ne fun heq => hx (hf heq)
      rw [List.replace_cons, hne, List.map_cons, List.map_cons, List.replace_cons, hne', ← ih]

theorem expr_injective : Function.Injective NodeId.expr := fun _ _ h => NodeId.expr.inj h

theorem replace_expr_cons (old new c : ExprId) (l : List NodeId) :
    (.expr c :: l).replace (.expr old) (.expr new) =
      if c = old then .expr new :: l else .expr c :: l.replace (.expr old) (.expr new) := by
  split_ifs with h
  · rw [h, List.replace_cons_self]
  · rw [List.replace_cons, beq_false_of_ne fun heq => h (NodeId.expr.inj heq).symm]

/-- In the parts of a statement the expression is replaced, wherever it stands. -/
theorem StmtKind.children_replaceExpr (old new : ExprId) (k : StmtKind) :
    (k.replaceExpr old new).children = k.children.replace (.expr old) (.expr new) := by
  have hrest (ss : List StmtId) : (ss.map NodeId.stmt).replace (.expr old) (.expr new) = ss.map NodeId.stmt :=
    List.replace_of_not_mem (by simp)
  cases k with
  | compound decls stmts =>
    have hnone : NodeId.expr old ∉ (compound decls stmts).children := by simp [children]
    exact (List.replace_of_not_mem hnone).symm
  | ifStmt cond thenBranch elseBranch =>
    have htail := hrest (thenBranch :: elseBranch.toList)
    simp only [List.map_cons] at htail
    simp only [replaceExpr, children, replace_expr_cons, htail]
    split_ifs <;> rfl
  | whileStmt cond body =>
    have htail := hrest [body]
    simp only [List.map_cons, List.map_nil] at htail
    simp only [replaceExpr, children, replace_expr_cons, htail]
    split_ifs <;> rfl
  | forStmt init cond update body =>
    have htail := hrest [body]
    simp only [List.map_cons, List.map_nil] at htail
    rcases init with _ | i <;> rcases cond with _ | c <;> rcases update with _ | u <;>
      simp only [replaceExpr, children, Option.some.injEq, reduceCtorEq, if_false, Option.toList_none,
        Option.toList_some, List.nil_append, List.cons_append, List.map_cons, List.map_nil, replace_expr_cons,
        htail] <;>
      split_ifs <;> rfl
  | returnStmt value =>
    cases value with
    | none => rfl
    | some e =>
      simp only [replaceExpr, children, Option.some.injEq, Option.toList_some, List.map_cons, List.map_nil,
        replace_expr_cons]
      split_ifs <;> rfl
  | exprStmt expr =>
    simp only [replaceExpr, children, replace_expr_cons]
    split_ifs <;> rfl
  | breakStmt => rfl
  | continueStmt => rfl
  | emptyStmt => rfl

theorem DeclKind.children_replaceInit (old new : ExprId) (k : DeclKind) :
    (k.replaceInit old new).children = k.children.replace (.expr old) (.expr new) := by
  have hinit (init : Option ExprId) : (if init = some old then some new else init).toList.map NodeId.expr =
      (init.toList.map NodeId.expr).replace (.expr old) (.expr new) := by
    cases init with
    | none => rfl
    | some e =>
      simp only [Option.some.injEq, Option.toList_some, List.map_cons, List.map_nil, replace_expr_cons]
      split_ifs <;> rfl
  cases k with
  | func params body hasReturn =>
    have hnone : NodeId.expr old ∉ (func params body hasReturn).children := by simp [children]
    exact (List.replace_of_not_mem hnone).symm
  | globalVar init => exact hinit init
  | localVar init => exact hinit init
  | param => rfl

theorem ExprKind.ident?_replaceChild (old new : ExprId) (k : ExprKind) :
    (k.replaceChild old new).ident? = k.ident? := by
  cases k with
  | binary op left right =>
    rw [replaceChild]
    split_ifs <;> rfl
  | assign target value =>
    rw [replaceChild]
    split_ifs <;> rfl
  | _ => rfl

namespace Arena

variable {a : Arena} {x q : NodeId} {e : ExprId}

/-! ## Another part in a node -/

theorem getElem?_modify_eq_map {α : Type} (xs : Array α) (f : α → α) (i j : Nat) :
    (xs.modify i f)[j]? = xs[j]?.map fun v => if i = j then f v else v := by
  rw [Array.getElem?_modify]
  by_cases h : i = j
  · simp [h]
  · simp [h]

theorem expr?_replaceChild (a : Arena) (q : NodeId) (old new id : ExprId) : (a.replaceChild q old new).expr? id =
    (a.expr? id).map fun n => if .expr id = q then { n with kind := n.kind.replaceChild old new } else n := by
  cases q with
  | expr id' =>
    have hsame : id'.index = id.index ↔ NodeId.expr id = .expr id' :=
      ⟨fun h => congrArg (fun i => NodeId.expr ⟨i⟩) h.symm, fun h => by cases h; rfl⟩
    simp only [← hsame]
    exact getElem?_modify_eq_map ..
  | _ => simp [replaceChild, expr?]

theorem stmt?_replaceChild (a : Arena) (q : NodeId) (old new : ExprId) (id : StmtId) :
    (a.replaceChild q old new).stmt? id =
      (a.stmt? id).map fun n => if .stmt id = q then { n with kind := n.kind.replaceExpr old new } else n := by
  cases q with
  | stmt id' =>
    have hsame : id'.index = id.index ↔ NodeId.stmt id = .stmt id' :=
      ⟨fun h => congrArg (fun i => NodeId.stmt ⟨i⟩) h.symm, fun h => by cases h; rfl⟩
    simp only [← hsame]
    exact getElem?_modify_eq_map ..
  | _ => simp [replaceChild, stmt?]

theorem decl?_replaceChild (a : Arena) (q : NodeId) (old new : ExprId) (id : DeclId) :
    (a.replaceChild q old new).decl? id =
      (a.decl? id).map fun n => if .decl id = q then { n with kind := n.kind.replaceInit old new } else n := by
  cases q with
  | decl id' =>
    have hsame : id'.index = id.index ↔ NodeId.decl id = .decl id' :=
      ⟨fun h => congrArg (fun i => NodeId.decl ⟨i⟩) h.symm, fun h => by cases h; rfl⟩
    simp only [← hsame]
    exact getElem?_modify_eq_map ..
  | _ => simp [replaceChild, decl?]

theorem program_replaceChild (a : Arena) (q : NodeId) (old new : ExprId) :
    (a.replaceChild q old new).program = a.program := by
  cases q <;> rfl

theorem parentOf_replaceChild (a : Arena) (q : NodeId) (old new : ExprId) (x : NodeId) :
    (a.replaceChild q old new).parentOf x = a.parentOf x := by
  cases x with
  | program => rfl
  | expr id =>
    rw [parentOf, expr?_replaceChild, parentOf, Option.bind_map]
    congr 1
    funext n
    rw [Function.comp_apply, apply_ite ExprNode.parent, ite_self]
  | stmt id =>
    rw [parentOf, stmt?_replaceChild, parentOf, Option.bind_map]
    congr 1
    funext n
    rw [Function.comp_apply, apply_ite StmtNode.parent, ite_self]
  | decl id =>
    rw [parentOf, decl?_replaceChild, parentOf, Option.bind_map]
    congr 1
    funext n
    rw [Function.comp_apply, apply_ite DeclNode.parent, ite_self]

theorem identOf_replaceChild (a : Arena) (q : NodeId) (old new : ExprId) (x : NodeId) :
    (a.replaceChild q old new).identOf x = a.identOf x := by
  cases x with
  | program => rfl
  | stmt id => rfl
  | expr id =>
    rw [identOf, expr?_replaceChild, identOf, Option.bind_map]
    congr 1
    funext n
    rw [Function.comp_apply, apply_ite (fun m : ExprNode => m.kind.ident?), ExprKind.ident?_replaceChild, ite_self]
  | decl id =>
    rw [identOf, decl?_replaceChild, identOf, Option.map_map]
    congr 1
    funext n
    rw [Function.comp_apply, apply_ite DeclNode.ident, ite_self]

theorem childrenOf_replaceChild (a : Arena) (q : NodeId) (old new : ExprId) (x : NodeId) :
    (a.replaceChild q old new).childrenOf x =
      if x = q then (a.childrenOf x).replace (.expr old) (.expr new) else a.childrenOf x := by
  have hnone : NodeId.expr old ∉ a.program.map .decl := by simp
  cases x with
  | program =>
    rw [childrenOf, program_replaceChild, childrenOf, List.replace_of_not_mem hnone, ite_self]
  | expr id =>
    rw [childrenOf, expr?_replaceChild, childrenOf]
    cases a.expr? id with
    | none => simp
    | some n => split_ifs <;> simp [ExprKind.children_replaceChild, map_replace expr_injective, *]
  | stmt id =>
    rw [childrenOf, stmt?_replaceChild, childrenOf]
    cases a.stmt? id with
    | none => simp
    | some n => split_ifs <;> simp [StmtKind.children_replaceExpr, *]
  | decl id =>
    rw [childrenOf, decl?_replaceChild, childrenOf]
    cases a.decl? id with
    | none => simp
    | some n => split_ifs <;> simp [DeclKind.children_replaceInit, *]

/-! ## A new conversion -/

/-- A flat form with a new conversion of an expression, which has it for its parent, but is not named yet by what
it is part of. -/
def converting (a : Arena) (e : ExprId) : Arena :=
  let node : ExprNode :=
    ⟨.intToFloat e, ((a.expr? e).map (·.span)).getD .dummy, a.parentOf (.expr e), some .float⟩
  { setParent (.expr ⟨a.exprs.size⟩) a (.expr e) with
    exprs := (setParent (.expr ⟨a.exprs.size⟩) a (.expr e)).exprs.push node }

theorem modify_push {α : Type} {xs : Array α} {n : Nat} (hn : n = xs.size) (v : α) (f : α → α) :
    (xs.push v).modify n f = xs.push (f v) := by
  subst hn
  refine Array.ext_getElem? fun i => ?_
  rw [Array.getElem?_modify, Array.getElem?_push, Array.getElem?_push]
  by_cases h : xs.size = i
  · subst h
    simp
  · rw [if_neg h, if_neg (Ne.symm h), if_neg (Ne.symm h)]

/-- A conversion is put in place as it gets the next number and is named in the place of the expression. -/
theorem wrapIntToFloat_eq (h : a.parentOf (.expr e) = some q) :
    a.wrapIntToFloat e = (⟨a.exprs.size⟩, (a.converting e).replaceChild q e ⟨a.exprs.size⟩) := by
  have hsize : (setParent (.expr ⟨a.exprs.size⟩) a (.expr e)).exprs.size = a.exprs.size := (setParent_sizes ..).1
  unfold wrapIntToFloat
  simp only [h, pushExpr, ExprKind.children, List.map_cons, List.map_nil, adopt, List.foldl_cons, List.foldl_nil]
  rw [modify_push hsize.symm, converting, h]

/-- A conversion of an expression that is part of nothing is named nowhere. -/
theorem wrapIntToFloat_eq_of_none (h : a.parentOf (.expr e) = none) :
    a.wrapIntToFloat e = (⟨a.exprs.size⟩, a.converting e) := by
  have hsize : (setParent (.expr ⟨a.exprs.size⟩) a (.expr e)).exprs.size = a.exprs.size := (setParent_sizes ..).1
  unfold wrapIntToFloat
  simp only [h, pushExpr, ExprKind.children, List.map_cons, List.map_nil, adopt, List.foldl_cons, List.foldl_nil]
  rw [modify_push hsize.symm, converting, h]

theorem wrapIntToFloat_sizes (a : Arena) (e : ExprId) :
    (a.wrapIntToFloat e).2.exprs.size = a.exprs.size + 1 ∧ (a.wrapIntToFloat e).2.stmts.size = a.stmts.size ∧
      (a.wrapIntToFloat e).2.decls.size = a.decls.size ∧ (a.wrapIntToFloat e).2.program = a.program ∧
      (a.wrapIntToFloat e).2.span = a.span := by
  cases hparent : a.parentOf (.expr e) with
  | none =>
    rw [wrapIntToFloat_eq_of_none hparent]
    simp [converting, setParent]
  | some q =>
    rw [wrapIntToFloat_eq hparent]
    cases q <;> simp [converting, setParent, replaceChild]

theorem expr?_converting (a : Arena) (e id : ExprId) : (a.converting e).expr? id =
    if id = ⟨a.exprs.size⟩ then
      some ⟨.intToFloat e, ((a.expr? e).map (·.span)).getD .dummy, a.parentOf (.expr e), some .float⟩
    else (a.expr? id).map fun n => if e = id then { n with parent := some (.expr ⟨a.exprs.size⟩) } else n := by
  have hsize : (setParent (.expr ⟨a.exprs.size⟩) a (.expr e)).exprs.size = a.exprs.size := (setParent_sizes ..).1
  have hnew : id.index = a.exprs.size ↔ id = ⟨a.exprs.size⟩ := ⟨fun h => congrArg ExprId.mk h, fun h => by rw [h]⟩
  have hsame : e.index = id.index ↔ e = id := ⟨fun h => congrArg ExprId.mk h, fun h => by rw [h]⟩
  show (Array.push _ _)[id.index]? = _
  simp only [Array.getElem?_push, hsize, hnew]
  by_cases hid : id = ⟨a.exprs.size⟩
  · rw [if_pos hid, if_pos hid]
  · rw [if_neg hid, if_neg hid]
    simp only [← hsame]
    exact getElem?_modify_eq_map ..

theorem childrenOf_converting (a : Arena) (e : ExprId) (x : NodeId) :
    (a.converting e).childrenOf x = if x = .expr ⟨a.exprs.size⟩ then [.expr e] else a.childrenOf x := by
  cases x with
  | expr id =>
    rw [childrenOf, expr?_converting, childrenOf]
    by_cases hid : id = ⟨a.exprs.size⟩
    · rw [if_pos hid, if_pos (congrArg NodeId.expr hid)]
      rfl
    · rw [if_neg hid, if_neg fun heq => hid (NodeId.expr.inj heq)]
      cases a.expr? id with
      | none => rfl
      | some n =>
        rw [Option.map_some, Option.toList_some, Option.toList_some, List.flatMap_singleton, List.flatMap_singleton,
          apply_ite (fun m : ExprNode => m.kind.children.map NodeId.expr), ite_self]
  | _ => rfl

theorem parentOf_converting (he : a.Contains (.expr e)) (x : NodeId) :
    (a.converting e).parentOf x = if x = .expr ⟨a.exprs.size⟩ then a.parentOf (.expr e)
      else if x = .expr e then some (.expr ⟨a.exprs.size⟩) else a.parentOf x := by
  cases x with
  | expr id =>
    rw [parentOf, expr?_converting]
    by_cases hid : id = ⟨a.exprs.size⟩
    · rw [if_pos hid, if_pos (congrArg NodeId.expr hid)]
      rfl
    · rw [if_neg hid, if_neg fun heq => hid (NodeId.expr.inj heq)]
      by_cases hsame : id = e
      · subst hsame
        obtain ⟨n, hn⟩ : ∃ n, a.expr? id = some n := ⟨_, Array.getElem?_eq_getElem he⟩
        simp [hn]
      · rw [if_neg fun heq => hsame (NodeId.expr.inj heq), parentOf]
        simp [Ne.symm hsame]
  | _ => rfl

theorem identOf_converting (a : Arena) (e : ExprId) (x : NodeId) :
    (a.converting e).identOf x = if x = .expr ⟨a.exprs.size⟩ then none else a.identOf x := by
  cases x with
  | expr id =>
    rw [identOf, expr?_converting, identOf]
    by_cases hid : id = ⟨a.exprs.size⟩
    · rw [if_pos hid, if_pos (congrArg NodeId.expr hid)]
      rfl
    · rw [if_neg hid, if_neg fun heq => hid (NodeId.expr.inj heq), Option.bind_map]
      congr 1
      funext n
      rw [Function.comp_apply, apply_ite (fun m : ExprNode => m.kind.ident?), ite_self]
  | _ => rfl

theorem contains_replaceChild (a : Arena) (q : NodeId) (old new : ExprId) (x : NodeId) :
    (a.replaceChild q old new).Contains x ↔ a.Contains x := by
  cases q <;> cases x <;> simp [replaceChild, Contains]

theorem contains_converting (a : Arena) (e : ExprId) (x : NodeId) :
    (a.converting e).Contains x ↔ x = .expr ⟨a.exprs.size⟩ ∨ a.Contains x := by
  cases x with
  | expr id =>
    have hnew : NodeId.expr id = .expr ⟨a.exprs.size⟩ ↔ id.index = a.exprs.size :=
      ⟨fun h => by cases h; rfl, fun h => congrArg (fun i => NodeId.expr ⟨i⟩) h⟩
    rw [hnew]
    simp only [Contains, converting, Array.size_push, (setParent_sizes ..).1]
    omega
  | _ => simp [Contains, converting, setParent]

/-! ## A node in between -/

/-- Of two flat forms the second has an expression more. What another expression was part of, if anything, has the new
one in its place, which has that one for its only part. -/
structure Between (a b : Arena) (w e : ExprId) : Prop where
  new : ¬ a.Contains (.expr w)
  parentOf : ∀ x, b.parentOf x =
    if x = .expr w then a.parentOf (.expr e) else if x = .expr e then some (.expr w) else a.parentOf x
  childrenOf : ∀ x, b.childrenOf x =
    if x = .expr w then [.expr e]
    else if a.parentOf (.expr e) = some x then (a.childrenOf x).replace (.expr e) (.expr w) else a.childrenOf x

/-- Links that agree do so with an expression in between. -/
theorem Between.consistent {b : Arena} {w : ExprId} (h : Between a b w e) (he : a.Contains (.expr e))
    (ha : a.Consistent) : b.Consistent := by
  have hne : NodeId.expr e ≠ .expr w := fun heq => h.new (heq ▸ he)
  have hunlisted (x : NodeId) : .expr w ∉ a.childrenOf x := fun hmem =>
    h.new (contains_of_parentOf (ha.parent_of_child _ _ hmem))
  have hnoParent {x y : NodeId} (hy : a.parentOf y = some x) : x ≠ .expr w := fun hx =>
    h.new (hx ▸ contains_of_childrenOf (ha.mem_childrenOf _ _ hy))
  have hmem {q y : NodeId} (hq : a.parentOf (.expr e) = some q) :=
    mem_replace_iff (x := y) (ha.nodup q) (ha.mem_childrenOf _ _ hq) (.expr w)
  constructor
  · intro x y hy
    rw [h.childrenOf] at hy
    rw [h.parentOf]
    split_ifs at hy with hx hq
    · rw [List.mem_singleton.1 hy, if_neg hne, if_pos rfl, hx]
    · rcases (hmem hq).1 hy with rfl | ⟨hy, hye⟩
      · rw [if_pos rfl, hq]
      · rw [if_neg (ne_of_mem_of_not_mem hy (hunlisted x)), if_neg hye, ha.parent_of_child _ _ hy]
    · have hpart := ha.parent_of_child _ _ hy
      have hye : y ≠ .expr e := fun heq => hq (heq ▸ hpart)
      rw [if_neg (ne_of_mem_of_not_mem hy (hunlisted x)), if_neg hye, hpart]
  · intro x y hy
    rw [h.parentOf] at hy
    rw [h.childrenOf]
    split_ifs at hy with hyw hye
    · rw [if_neg (hnoParent hy), if_pos hy]
      exact (hmem hy).2 (.inl hyw)
    · rw [if_pos (Option.some.inj hy).symm, hye]
      exact List.mem_singleton_self _
    · rw [if_neg (hnoParent hy)]
      split_ifs with hq
      · exact (hmem hq).2 (.inr ⟨ha.mem_childrenOf _ _ hy, hye⟩)
      · exact ha.mem_childrenOf _ _ hy
  · intro x
    rw [h.childrenOf]
    split_ifs
    · exact List.nodup_singleton _
    · exact nodup_replace (ha.nodup x) (hunlisted x)
    · exact ha.nodup x

/-- Of two flat forms the second has an expression more: what another expression was part of has the new one in
its place, which has that one for its only part. -/
structure Interposed (a b : Arena) (w e : ExprId) (q : NodeId) : Prop where
  new : ¬ a.Contains (.expr w)
  part : a.parentOf (.expr e) = some q
  contains : ∀ x, b.Contains x ↔ x = .expr w ∨ a.Contains x
  parentOf : ∀ x, b.parentOf x =
    if x = .expr w then some q else if x = .expr e then some (.expr w) else a.parentOf x
  childrenOf : ∀ x, b.childrenOf x =
    if x = .expr w then [.expr e] else if x = q then (a.childrenOf x).replace (.expr e) (.expr w) else a.childrenOf x
  identOf : ∀ x, b.identOf x = if x = .expr w then none else a.identOf x

/-- A conversion gets the next number, and is put in the place of what it converts. -/
theorem interposed_wrapIntToFloat (h : a.parentOf (.expr e) = some q) (hq : a.Contains q) :
    Interposed a (a.wrapIntToFloat e).2 (a.wrapIntToFloat e).1 e q := by
  have hnew : ¬ a.Contains (.expr ⟨a.exprs.size⟩) := Nat.lt_irrefl _
  rw [wrapIntToFloat_eq h]
  refine ⟨hnew, h, fun x => ?_, fun x => ?_, fun x => ?_, fun x => ?_⟩
  · rw [contains_replaceChild, contains_converting]
  · rw [parentOf_replaceChild, parentOf_converting (contains_of_parentOf h), h]
  · have hne : q ≠ .expr ⟨a.exprs.size⟩ := fun heq => hnew (heq ▸ hq)
    rw [childrenOf_replaceChild, childrenOf_converting]
    by_cases hx : x = .expr ⟨a.exprs.size⟩
    · rw [if_pos hx, if_pos hx, if_neg fun heq => hne (heq.symm.trans hx)]
    · rw [if_neg hx, if_neg hx]
  · rw [identOf_replaceChild, identOf_converting]

namespace Interposed

variable {b : Arena} {w : ExprId} {library : List DeclId} {y : NodeId}

/-- What has a link is none of the new. -/
theorem ne_of_parentOf (h : Interposed a b w e q) (hx : a.parentOf x = some y) : x ≠ .expr w := by
  rintro rfl
  exact h.new (contains_of_parentOf hx)

theorem between (h : Interposed a b w e q) : Between a b w e where
  new := h.new
  parentOf x := by rw [h.parentOf, h.part]
  childrenOf x := by simp only [h.childrenOf, h.part, Option.some.injEq, eq_comm (a := q)]

/-- A step to a parent is the same step, or leads by way of the new expression. -/
theorem under (h : Interposed a b w e q) (hx : a.Under x y) : b.Under x y := by
  refine Relation.TransGen.closed ?_ _ _ hx
  intro x y hxy
  by_cases hxe : x = .expr e
  · subst hxe
    cases h.part.symm.trans hxy
    have hew : b.parentOf (.expr e) = some (.expr w) := by
      rw [h.parentOf, if_neg (h.ne_of_parentOf hxy), if_pos rfl]
    have hwq : b.parentOf (.expr w) = some q := by rw [h.parentOf, if_pos rfl]
    exact .tail (.single hew) hwq
  · refine .single ?_
    rw [h.parentOf, if_neg (h.ne_of_parentOf hxy), if_neg hxe, hxy]

theorem under_program (h : Interposed a b w e q) (hl : a.Linked library) (he : a.Under (.expr e) .program)
    (hx : b.Contains x) (hne : x ≠ .program) :
    b.Under x .program ∨ ∃ d ∈ library, ∃ p, x = .decl p ∧ (p = d ∨ b.parentOf x = some (.decl d)) := by
  -- of the old links only that of the expression changes, so that it is set apart
  by_cases hxe : x = .expr e
  · rw [hxe]
    exact .inl (h.under he)
  rcases (h.contains x).1 hx with rfl | hx
  · have hwq : b.parentOf (.expr w) = some q := by rw [h.parentOf, if_pos rfl]
    obtain ⟨q', hq', hunder⟩ := Relation.TransGen.head'_iff.1 he
    cases h.part.symm.trans hq'
    rcases Relation.reflTransGen_iff_eq_or_transGen.1 hunder with rfl | hunder
    · exact .inl (.single hwq)
    · exact .inl (.head hwq (h.under hunder))
  · rcases hl.under_program x hx hne with hunder | ⟨d, hd, p, hp, heq | hpart⟩
    · exact .inl (h.under hunder)
    · exact .inr ⟨d, hd, p, hp, .inl heq⟩
    · refine .inr ⟨d, hd, p, hp, .inr ?_⟩
      rw [h.parentOf, if_neg (h.ne_of_parentOf hpart), if_neg hxe, hpart]

theorem consistent (h : Interposed a b w e q) (ha : a.Consistent) : b.Consistent :=
  h.between.consistent (contains_of_parentOf h.part) ha

/-- Links agree with an expression between another one and what that was a part of. -/
theorem linked (h : Interposed a b w e q) (hl : a.Linked library) (he : a.Under (.expr e) .program) :
    b.Linked library where
  contains_child x y hy := contains_of_parentOf ((h.consistent hl.consistent).parent_of_child x y hy)
  contains_parent x y hy := by
    rw [h.contains]
    rw [h.parentOf] at hy
    split_ifs at hy with hx hx
    · cases hy
      exact .inr (hl.contains_parent _ _ h.part)
    · cases hy
      exact .inl rfl
    · exact .inr (hl.contains_parent _ _ hy)
  contains_bound x i hi d hd := by
    rw [h.contains]
    rw [h.identOf] at hi
    split_ifs at hi with hx
    · cases hi
    · exact .inr (hl.contains_bound x i hi d hd)
  contains_library d hd := (h.contains _).2 (.inr (hl.contains_library d hd))
  parent_of_child := (h.consistent hl.consistent).parent_of_child
  child_of_parent x y hy :=
    have hb := h.consistent hl.consistent
    List.count_eq_one_of_mem (hb.nodup x) (hb.mem_childrenOf x y hy)
  orphan x hx hne := by
    rw [h.parentOf]
    split_ifs with hxw hxe
    · simp [hxw]
    · simp [hxe]
    · exact hl.orphan x (((h.contains x).1 hx).resolve_left hxw) hne
  under_program x := h.under_program hl he

end Interposed

/-- Nothing but declarations is not under the program. -/
theorem Linked.under {library : List DeclId} (hl : a.Linked library) {x : NodeId} (hx : a.Contains x)
    (hprogram : x ≠ .program) (hdecl : ∀ d, x ≠ .decl d) : a.Under x .program := by
  rcases hl.under_program x hx hprogram with h | ⟨d, -, p, hp, -⟩
  · exact h
  · exact absurd hp (hdecl p)

/-- A conversion of an expression leaves the links in agreement. -/
theorem Linked.wrapIntToFloat {library : List DeclId} (hl : a.Linked library) (hcontains : a.Contains (.expr e)) :
    (a.wrapIntToFloat e).2.Linked library := by
  have he := hl.under hcontains nofun fun d => nofun
  obtain ⟨q, hq, -⟩ := Relation.TransGen.head'_iff.1 he
  exact (interposed_wrapIntToFloat hq (hl.contains_parent _ _ hq)).linked hl he

end Arena

end VCLang
