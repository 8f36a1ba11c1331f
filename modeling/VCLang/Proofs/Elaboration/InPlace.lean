/-
The check of a program in place. Whatever a check makes of a tree, its edits make of the nodes of that tree in any flat
form that holds them: a node is visited once its parts are, conversions come between it and a part that is visited
already, and what is put into it last is its own. So the edits of a check turn the flat form of a program into that of
the checked program.
-/
import VCLang.Proofs.Arena.Rework
import VCLang.Proofs.Elaboration.Bindings
namespace VCLang

open Arena Edit

variable {N n n' : Nat} {edits : List Edit}

/-! ## A node with expressions under it -/

/-- The nodes of expressions under a node, and behind them the node with these in its places. -/
def Entry.carrying (x : Entry) (cs : List Expr) : List Entry :=
  cs.flatMap (Expr.entries x.id) ++ [x.withExprs (cs.map Expr.id)]

/-- A node that has its own expressions under it stays as it is. -/
theorem Entry.carrying_own {x : Entry} {cs : List Expr} (h : x.exprs = cs.map Expr.id) :
    x.carrying cs = cs.flatMap (Expr.entries x.id) ++ [x] := by
  rw [carrying, ← h, withExprs_exprs]

theorem Expr.entries_carrying (e : Expr) (q : NodeId) : e.entries q = (e.entry q).carrying e.children := by
  have hexprs : (e.entry q).exprs = e.children.map id := e.kind_children
  rw [Entry.carrying_own hexprs, entries_eq]
  rfl

/-- The node of a variable. -/
def VarDecl.entry (q : NodeId) (d : VarDecl) : Entry := .decl d.id ⟨d.kind, d.ident, d.ty, d.span, some q⟩

theorem VarDecl.exprs_entry (d : VarDecl) (q : NodeId) : (d.entry q).exprs = d.init.toList.map Expr.id := by
  change d.kind.init?.toList = _
  unfold kind
  split <;> cases d.init <;> rfl

theorem VarDecl.entries_carrying (d : VarDecl) (q : NodeId) : d.entries q = (d.entry q).carrying d.init.toList := by
  rw [Entry.carrying_own (d.exprs_entry q), entries, Expr.entriesOption_eq]
  rfl

/-- Another initial value stands in the place of the one that there was. -/
theorem VarDecl.carrying_init {d : VarDecl} {e : Expr} (h : d.init = some e) (e' : Expr) (q : NodeId) :
    (d.entry q).carrying [e'] = (VarDecl.entry q { d with init := some e' }).carrying [e'] := by
  simp only [Entry.carrying, entry, Entry.withExprs, kind, h]
  split <;> rfl

theorem Stmt.exprs_entry (s : Stmt) (q : NodeId) : (s.entry q).exprs = s.exprs.map Expr.id := by
  change s.kind.exprs = _
  cases s with
  | forStmt info init cond update body => cases init <;> cases cond <;> cases update <;> rfl
  | returnStmt info value => cases value <;> rfl
  | _ => rfl

/-- A part of some values is moved to their end, and another part to where it belongs. -/
theorem perm_gather {α : Type} (part last front before back : List α) :
    (part ++ last ++ (front ++ before ++ back)).Perm (front ++ (before ++ part ++ back) ++ last) := by
  classical
  refine List.perm_iff_count.2 fun x => ?_
  simp only [List.count_append]
  omega

namespace Reworks

variable {x : Entry} {front back : List Expr} {c c' : Expr}

/-- What is made of one expression under a node, where it keeps its number. -/
theorem child (h : Reworks N edits n (c.entries x.id) (c'.entries x.id) n') (hid : c'.id = c.id)
    (front back : List Expr) :
    Reworks N edits n (x.carrying (front ++ c :: back)) (x.carrying (front ++ c' :: back)) n' := by
  have hframed := h.between (front.flatMap (Expr.entries x.id))
    (back.flatMap (Expr.entries x.id) ++ [x.withExprs ((front ++ c :: back).map Expr.id)])
  simp only [Entry.carrying, List.flatMap_append, List.flatMap_cons, List.map_append, List.map_cons, hid,
    List.append_assoc] at hframed ⊢
  exact hframed

/-- What is made of the node itself. -/
theorem root {x' : Entry} {cs : List Expr} (hid : x'.id = x.id)
    (h : Reworks N edits n [x.withExprs (cs.map Expr.id)] [x'.withExprs (cs.map Expr.id)] n') :
    Reworks N edits n (x.carrying cs) (x'.carrying cs) n' := by
  rw [Entry.carrying, Entry.carrying, hid]
  exact h.behind _

/-- A conversion of one expression under a node. -/
theorem convert (hlen : (front ++ c :: back).length = x.exprs.length) :
    Reworks N [.wrap c.id] n (x.carrying (front ++ c :: back))
      (x.carrying (front ++ .intToFloat ⟨⟨n⟩, c.span, some .float⟩ c :: back)) (n + 1) := by
  intro a ha
  -- no expression in front has the number of this one
  have hfront : c.id ∉ front.map Expr.id := by
    intro hmem
    obtain ⟨d, hd, hid⟩ := List.mem_map.1 hmem
    have hnodup := ha.nodup
    rw [Entry.carrying, List.flatMap_append, List.flatMap_cons, List.append_assoc, List.map_append] at hnodup
    have hroot (e : Expr) : NodeId.expr e.id ∈ (e.entries x.id).map Entry.id := by
      rw [e.entries_eq]
      simp [Expr.entry, Entry.id]
    have hd : NodeId.expr d.id ∈ (front.flatMap (Expr.entries x.id)).map Entry.id := by
      rw [List.map_flatMap]
      exact List.mem_flatMap.2 ⟨d, hd, hroot d⟩
    have hc := List.mem_append_left ((back.flatMap (Expr.entries x.id) ++
      [x.withExprs ((front ++ c :: back).map Expr.id)]).map Entry.id) (hroot c)
    rw [← List.map_append, ← List.append_assoc] at hc
    exact (List.nodup_append.1 hnodup).2.2 _ hd _ hc (by rw [hid])
  have hlen' : ((front ++ c :: back).map Expr.id).length = x.exprs.length := by rwa [List.length_map]
  have hreplace : ((front ++ c :: back).map Expr.id).replace c.id ⟨n⟩ =
      (front ++ .intToFloat ⟨⟨n⟩, c.span, some .float⟩ c :: back).map Expr.id := by
    rw [List.map_append, List.map_cons, List.replace_append, if_neg hfront, List.replace_cons_self, List.map_append]
    rfl
  have hparent : (c.node x.id).parent = some (x.withExprs ((front ++ c :: back).map Expr.id)).id := by
    rw [Entry.id_withExprs]
    rfl
  have hbase := Reworks.wrap (N := N) (n := n) hparent
  rw [Entry.exprs_withExprs hlen', Entry.id_withExprs] at hbase
  have hbase := hbase c.id
  rw [hreplace, Entry.withExprs_withExprs hlen' (by simpa using hlen)] at hbase
  have hconversion : (Expr.intToFloat ⟨⟨n⟩, c.span, some .float⟩ c).entries x.id =
      c.children.flatMap (Expr.entries (.expr c.id)) ++ [c.entry (.expr ⟨n⟩),
        (Expr.intToFloat ⟨⟨n⟩, c.span, some .float⟩ c).entry x.id] := by
    rw [Expr.entries, c.entries_eq, List.append_assoc]
    rfl
  refine (hbase.frame (front.flatMap (Expr.entries x.id) ++ c.children.flatMap (Expr.entries (.expr c.id)) ++
    back.flatMap (Expr.entries x.id))).perm ?_ ?_ ha
  · rw [Entry.carrying, List.flatMap_append, List.flatMap_cons, c.entries_eq]
    exact perm_gather [c.entry x.id] [_] _ _ _
  · rw [Entry.carrying, List.flatMap_append, List.flatMap_cons, hconversion]
    exact perm_gather [c.entry (.expr ⟨n⟩), _] [_] _ _ _

end Reworks

/-! ## What is written into the node itself -/

section Root

variable {id : ExprId} {info : ExprInfo}

theorem reworks_typings (info : ExprInfo) (t : Ty) (node : ExprNode) : Reworks N (info.typed t).typings n
    [.expr info.id node] [.expr info.id { node with ty := some t }] n := by
  have h : ∀ a : Arena, (Edit.setType info.id t).apply a = a.modifyExpr info.id fun n => { n with ty := some t } :=
    fun _ => rfl
  exact .expr h (fun _ _ => trivial) node

/-- The type of an expression is written behind all else. -/
theorem Reworks.typed {es : List Entry} {node : ExprNode} {cs : List Expr}
    (h : Reworks N edits n es ((Entry.expr info.id node).carrying cs) n') (t : Ty) :
    Reworks N (edits ++ (info.typed t).typings) n es
      ((Entry.expr info.id { node with ty := some t }).carrying cs) n' :=
  h.append (.root rfl (reworks_typings info t _))

/-- A name has become another by no more than that it may be bound. -/
def Ident.BoundAs (i i' : Ident) : Prop := (i'.decl = none → i' = i) ∧ ∀ d ∈ i'.decl, i.bindTo d = i'

theorem Ident.boundAs_self (i : Ident) : i.BoundAs i := by
  refine ⟨fun _ => rfl, fun d hd => ?_⟩
  rw [bindTo, ← Option.mem_def.1 hd]

/-- A name is bound, or it stays as it is. -/
theorem reworks_bindings {i i' : Ident} (h : i.BoundAs i') (hbound : ∀ d ∈ i'.decl, d.index < N)
    {node : ExprNode} (form : Ident → ExprKind) (hform : ∀ d, (form i).bindTo d = form (i.bindTo d))
    (hnode : node.kind = form i) :
    Reworks N (i'.bindings id) n [.expr id node] [.expr id { node with kind := form i' }] n := by
  unfold Ident.bindings
  cases hd : i'.decl with
  | none =>
    rw [h.1 hd, ← hnode]
    exact .nil
  | some d =>
    have happly : ∀ a : Arena, (Edit.bind id d).apply a =
        a.modifyExpr id fun n => { n with kind := n.kind.bindTo d } := fun _ => rfl
    have hbind := Reworks.expr (n := n) happly (fun a hN => Nat.lt_of_lt_of_le (hbound d hd) hN) node
    rwa [hnode, hform, h.2 d hd] at hbind

/-- An operator is spelt anew, or it stays as it is. -/
theorem reworks_respellings {op op' : Operator} (h : op'.span = op.span) {node : ExprNode}
    (form : Operator → ExprKind) (hform : ∀ spelling, (form op).respell spelling = form { op with spelling })
    (hnode : node.kind = form op) :
    Reworks N (op.respellings id op') n [.expr id node] [.expr id { node with kind := form op' }] n := by
  obtain ⟨spelling, span⟩ := op'
  obtain rfl : span = op.span := h
  unfold Operator.respellings
  split_ifs with hsame
  · obtain rfl : spelling = op.spelling := hsame
    rw [← hnode]
    exact .nil
  · have happly : ∀ a : Arena, (Edit.respell id spelling).apply a =
        a.modifyExpr id fun n => { n with kind := n.kind.respell spelling } := fun _ => rfl
    have hrespell := Reworks.expr (N := N) (n := n) happly (fun _ _ => trivial) node
    rwa [hnode, hform] at hrespell

end Root

namespace Typing

variable {env env' : Env} {e e' checked : Expr} {n₁ n₂ m m' : Nat} {errors : List Error}

/-! ## Conversions -/

/-- What was checked is told from the conversion around it. -/
theorem Elaborates.core_eq (h : Elaborates env n e checked n₁ errors) (hc : Converted m checked e' m') :
    e.core e' = checked := by
  cases hc with
  | keep => cases h <;> rfl
  | widen hint =>
    cases h with
    | intToFloat => cases hint
    | _ => rfl

/-- A checked expression is put into a conversion, or stays as it is. -/
theorem Elaborates.reworks_wraps (h : Elaborates env n e checked n₁ errors) (hc : Converted m checked e' m')
    (x : Entry) (front back : List Expr) (hlen : (front ++ checked :: back).length = x.exprs.length) :
    Reworks N (e.wraps e') m (x.carrying (front ++ checked :: back)) (x.carrying (front ++ e' :: back)) m' := by
  have hid := h.id
  cases hc with
  | keep =>
    have hwraps : e.wraps e' = [] := by
      cases h <;> rfl
    rw [hwraps]
    exact .nil
  | widen hint =>
    have hwraps : e.wraps (.intToFloat ⟨⟨m⟩, checked.span, some .float⟩ checked) = [.wrap checked.id] := by
      rw [hid]
      cases h with
      | intToFloat => cases hint
      | _ => rfl
    rw [hwraps]
    exact .convert hlen

/-- The names in an expression are among those in a conversion of it. -/
theorem Converted.bound_core {q : NodeId} (h : Converted n checked e' n') (hb : Bound N (e'.entries q)) :
    Bound N (checked.entries q) := by
  cases h with
  | keep => exact hb
  | widen =>
    rw [Expr.entries, bound_append] at hb
    exact bound_parent hb.1 q

/-! ## Expressions -/

/-- The edits of a check make of the nodes of an expression those of the checked one. -/
def InPlace (N : Nat) (e : Expr) : Prop := ∀ ⦃env n e' n' errors q⦄, Elaborates env n e e' n' errors →
  Bound N (e'.entries q) → Reworks N (e.edits e') n (e.entries q) (e'.entries q) n'

/-- A part of a node is checked. -/
theorem InPlace.child (hplace : InPlace N e) (h : Elaborates env n e checked n' errors) (x : Entry)
    (hb : Bound N (checked.entries x.id)) (front back : List Expr) : Reworks N (e.edits checked) n
      (x.carrying (front ++ e :: back)) (x.carrying (front ++ checked :: back)) n' :=
  Reworks.child (hplace h hb) h.id front back

/-- A part of a node is checked, and then converted. -/
theorem InPlace.settled (hplace : InPlace N e) (h : Elaborates env n e checked n₁ errors)
    (hc : Converted n₁ checked e' n') (x : Entry) (hb : Bound N (e'.entries x.id)) (front back : List Expr)
    (hlen : (front ++ e :: back).length = x.exprs.length) : Reworks N (e.edits (e.core e') ++ e.wraps e') n
      (x.carrying (front ++ e :: back)) (x.carrying (front ++ e' :: back)) n' := by
  rw [h.core_eq hc]
  have hlen' : (front ++ checked :: back).length = x.exprs.length := by simpa using hlen
  exact (hplace.child h x (hc.bound_core hb) front back).append (h.reworks_wraps hc x front back hlen')

/-- The parts of a node are checked one after another. -/
theorem ElaboratesAll.inPlace {es es' : List Expr} (h : ElaboratesAll env n es es' n' errors)
    (hplace : ∀ e ∈ es, InPlace N e) (x : Entry) (hb : ∀ e' ∈ es', Bound N (e'.entries x.id)) (front : List Expr)
    (hlen : (front ++ es).length = x.exprs.length) :
    Reworks N (Expr.editsAll es es') n (x.carrying (front ++ es)) (x.carrying (front ++ es')) n' := by
  induction es generalizing n es' errors front with
  | nil =>
    cases h
    exact .nil
  | cons e es ih =>
    cases h with
    | @cons _ _ e' _ es' _ _ _ _ _ _ _ he hc _ hrest =>
      have hfirst := (hplace e (by simp)).settled he hc x (hb e' (by simp)) front es hlen
      have hmore := ih hrest (fun e he => hplace e (by simp [he])) (fun e' he => hb e' (by simp [he])) (front ++ [e'])
        (by simpa using hlen)
      rw [List.append_assoc, List.append_assoc] at hmore
      exact hfirst.append hmore

/-- The use of a name leaves it as it is, or binds it. -/
theorem Uses.boundAs {ident ident' : Ident} {span : Span} {t : Ty} (h : Uses env ident span ident' t errors) :
    ident.BoundAs ident' := by
  cases h with
  | unbound => exact ident.boundAs_self
  | bound =>
    refine ⟨nofun, fun d hd => ?_⟩
    cases hd
    rfl

section Expressions

variable {info : ExprInfo} {ident ident' : Ident} {op op' : Operator} {t : Ty} {q : NodeId}

theorem bound_children (h : Bound N (e.entries q)) : ∀ c ∈ e.children, Bound N (c.entries (.expr e.id)) := by
  intro c hc
  rw [Expr.entries_eq, bound_append] at h
  exact fun x hx => h.1 x (List.mem_flatMap.2 ⟨c, hc, hx⟩)

theorem bound_ident (h : Bound N (e.entries q)) : ∀ i ∈ e.kind.ident?, ∀ d ∈ i.decl, d.index < N := by
  rw [Expr.entries_eq, bound_append, bound_entry] at h
  exact h.2

theorem inPlace_arrayAccess {index index' : Expr} (hplace : InPlace N index)
    (hindex : Elaborates env n index index' n' errors) (hident : ident.BoundAs ident')
    (hb : Bound N ((Expr.arrayAccess (info.typed t) ident' index').entries q)) :
    Reworks N ((Expr.arrayAccess info ident index).edits (.arrayAccess (info.typed t) ident' index')) n
      ((Expr.arrayAccess info ident index).entries q) ((Expr.arrayAccess (info.typed t) ident' index').entries q)
      n' := by
  let named : Expr := .arrayAccess info ident' index
  have hnames : Reworks N (ident'.bindings info.id) n (((Expr.arrayAccess info ident index).entry q).carrying [index])
      ((named.entry q).carrying [index]) n :=
    .root rfl (reworks_bindings hident (bound_ident hb ident' rfl) (.arrayAccess · index.id) (fun _ => rfl) rfl)
  have hchild : Reworks N (index.edits index') n ((named.entry q).carrying [index]) ((named.entry q).carrying [index'])
      n' := hplace.child hindex (named.entry q) (bound_children hb index' (by simp [Expr.children])) [] []
  rw [Expr.entries_carrying, Expr.entries_carrying]
  exact (hnames.append hchild).typed t

theorem inPlace_call {args args' : List Expr} (hplace : ∀ e ∈ args, InPlace N e)
    (hall : ElaboratesAll env n args args' n' errors) (hident : ident.BoundAs ident')
    (hb : Bound N ((Expr.call (info.typed t) ident' args').entries q)) :
    Reworks N ((Expr.call info ident args).edits (.call (info.typed t) ident' args')) n
      ((Expr.call info ident args).entries q) ((Expr.call (info.typed t) ident' args').entries q) n' := by
  let named : Expr := .call info ident' args
  have hnames : Reworks N (ident'.bindings info.id) n (((Expr.call info ident args).entry q).carrying args)
      ((named.entry q).carrying args) n :=
    .root rfl (reworks_bindings hident (bound_ident hb ident' rfl) (.call · (args.map Expr.id)) (fun _ => rfl) rfl)
  have hargs : Reworks N (Expr.editsAll args args') n ((named.entry q).carrying args)
      ((named.entry q).carrying args') n' :=
    hall.inPlace hplace (named.entry q) (bound_children hb) [] (List.length_map ..).symm
  rw [Expr.entries_carrying, Expr.entries_carrying]
  exact (hnames.append hargs).typed t

theorem inPlace_initList {elements elements' : List Expr} (hplace : ∀ e ∈ elements, InPlace N e)
    (hall : ElaboratesAll env n elements elements' n' errors)
    (hb : Bound N ((Expr.initList (info.typed t) elements').entries q)) :
    Reworks N ((Expr.initList info elements).edits (.initList (info.typed t) elements')) n
      ((Expr.initList info elements).entries q) ((Expr.initList (info.typed t) elements').entries q) n' := by
  let x := (Expr.initList info elements).entry q
  have helements : Reworks N (Expr.editsAll elements elements') n (x.carrying elements) (x.carrying elements') n' :=
    hall.inPlace hplace x (bound_children hb) [] (List.length_map ..).symm
  rw [Expr.entries_carrying, Expr.entries_carrying]
  exact helements.typed t

theorem inPlace_unary {operand operand' : Expr} (hplace : InPlace N operand)
    (hoperand : Elaborates env n operand operand' n' errors) (hop : op'.span = op.span)
    (hb : Bound N ((Expr.unary (info.typed t) op' operand').entries q)) :
    Reworks N ((Expr.unary info op operand).edits (.unary (info.typed t) op' operand')) n
      ((Expr.unary info op operand).entries q) ((Expr.unary (info.typed t) op' operand').entries q) n' := by
  let x := (Expr.unary info op operand).entry q
  let spelt : Expr := .unary info op' operand
  have hchild : Reworks N (operand.edits operand') n (x.carrying [operand]) (x.carrying [operand']) n' :=
    hplace.child hoperand x (bound_children hb operand' (by simp [Expr.children])) [] []
  have hspelling : Reworks N (op.respellings info.id op') n' (x.carrying [operand'])
      ((spelt.entry q).carrying [operand']) n' :=
    .root rfl (reworks_respellings hop (.unary · operand'.id) (fun _ => rfl) rfl)
  rw [Expr.entries_carrying, Expr.entries_carrying]
  exact (hchild.append hspelling).typed t

theorem inPlace_intToFloat {operand operand' : Expr} (hplace : InPlace N operand)
    (hoperand : Elaborates env n operand operand' n' errors)
    (hb : Bound N ((Expr.intToFloat (info.typed t) operand').entries q)) :
    Reworks N ((Expr.intToFloat info operand).edits (.intToFloat (info.typed t) operand')) n
      ((Expr.intToFloat info operand).entries q) ((Expr.intToFloat (info.typed t) operand').entries q) n' := by
  let x := (Expr.intToFloat info operand).entry q
  have hchild : Reworks N (operand.edits operand') n (x.carrying [operand]) (x.carrying [operand']) n' :=
    hplace.child hoperand x (bound_children hb operand' (by simp [Expr.children])) [] []
  rw [Expr.entries_carrying, Expr.entries_carrying]
  exact hchild.typed t

theorem inPlace_binary {left left' left'' right right' right'' : Expr} {n₃ : Nat} {more : List Error}
    (hplacel : InPlace N left) (hplacer : InPlace N right) (hl : Elaborates env n left left' n₁ errors)
    (hr : Elaborates env n₁ right right' n₂ more) (hcl : Converted n₂ left' left'' n₃)
    (hcr : Converted n₃ right' right'' n') (hop : op'.span = op.span)
    (hb : Bound N ((Expr.binary (info.typed t) op' left'' right'').entries q)) :
    Reworks N ((Expr.binary info op left right).edits (.binary (info.typed t) op' left'' right'')) n
      ((Expr.binary info op left right).entries q) ((Expr.binary (info.typed t) op' left'' right'').entries q) n' := by
  let x := (Expr.binary info op left right).entry q
  let spelt : Expr := .binary info op' left right
  have hboundl := hcl.bound_core (bound_children hb left'' (by simp [Expr.children]))
  have hboundr := hcr.bound_core (bound_children hb right'' (by simp [Expr.children]))
  have hleft : Reworks N (left.edits left') n (x.carrying [left, right]) (x.carrying [left', right]) n₁ :=
    hplacel.child hl x hboundl [] [right]
  have hright : Reworks N (right.edits right') n₁ (x.carrying [left', right]) (x.carrying [left', right']) n₂ :=
    hplacer.child hr x hboundr [left'] []
  have hwrapl : Reworks N (left.wraps left'') n₂ (x.carrying [left', right']) (x.carrying [left'', right']) n₃ :=
    hl.reworks_wraps hcl x [] [right'] rfl
  have hwrapr : Reworks N (right.wraps right'') n₃ (x.carrying [left'', right']) (x.carrying [left'', right'']) n' :=
    hr.reworks_wraps hcr x [left''] [] rfl
  have hspelling : Reworks N (op.respellings info.id op') n' (x.carrying [left'', right''])
      ((spelt.entry q).carrying [left'', right'']) n' :=
    .root rfl (reworks_respellings hop (.binary · left''.id right''.id) (fun _ => rfl) rfl)
  rw [Expr.entries_carrying, Expr.entries_carrying, Expr.edits, hl.core_eq hcl, hr.core_eq hcr]
  exact ((((hleft.append hright).append hwrapl).append hwrapr).append hspelling).typed t

theorem inPlace_assign {target target' value value' value'' : Expr} {more : List Error} (hplacet : InPlace N target)
    (hplacev : InPlace N value) (ht : Elaborates env n target target' n₁ errors)
    (hv : Elaborates env n₁ value value' n₂ more) (hc : Converted n₂ value' value'' n')
    (hb : Bound N ((Expr.assign (info.typed t) target' value'').entries q)) :
    Reworks N ((Expr.assign info target value).edits (.assign (info.typed t) target' value'')) n
      ((Expr.assign info target value).entries q) ((Expr.assign (info.typed t) target' value'').entries q) n' := by
  let x := (Expr.assign info target value).entry q
  have hboundv := hc.bound_core (bound_children hb value'' (by simp [Expr.children]))
  have htarget : Reworks N (target.edits target') n (x.carrying [target, value]) (x.carrying [target', value]) n₁ :=
    hplacet.child ht x (bound_children hb target' (by simp [Expr.children])) [] [value]
  have hvalue : Reworks N (value.edits value') n₁ (x.carrying [target', value]) (x.carrying [target', value']) n₂ :=
    hplacev.child hv x hboundv [target'] []
  have hwrap : Reworks N (value.wraps value'') n₂ (x.carrying [target', value']) (x.carrying [target', value'']) n' :=
    hv.reworks_wraps hc x [target'] [] rfl
  rw [Expr.entries_carrying, Expr.entries_carrying, Expr.edits, hv.core_eq hc]
  exact ((htarget.append hvalue).append hwrap).typed t

/-- What is made of the parts of an expression is made of the whole. -/
theorem Elaborates.inPlace_of_children (h : Elaborates env n e e' n' errors) (hplace : ∀ c ∈ e.children, InPlace N c)
    (hb : Bound N (e'.entries q)) : Reworks N (e.edits e') n (e.entries q) (e'.entries q) n' := by
  cases h with
  | @literal info value =>
    have htype : Reworks N (info.typed (literalType value)).typings n (((Expr.literal info value).entry q).carrying [])
        (((Expr.literal (info.typed (literalType value)) value).entry q).carrying []) n :=
      .root rfl (reworks_typings info _ _)
    exact htype
  | @var info ident ident' t _ _ huse =>
    let named : Expr := .var info ident'
    have hnames : Reworks N (ident'.bindings info.id) n (((Expr.var info ident).entry q).carrying [])
        ((named.entry q).carrying []) n :=
      .root rfl (reworks_bindings huse.boundAs (bound_ident hb ident' rfl) .var (fun _ => rfl) rfl)
    exact hnames.typed t
  | arrayAccess hindex huse => exact inPlace_arrayAccess (hplace _ (by simp [Expr.children])) hindex huse.boundAs hb
  | mainCall _ hargs => exact inPlace_call hplace hargs (Ident.boundAs_self _) hb
  | call _ huse hargs _ => exact inPlace_call hplace hargs huse.boundAs hb
  | unary ho _ => exact inPlace_unary (hplace _ (by simp [Expr.children])) ho rfl hb
  | unaryError ho _ => exact inPlace_unary (hplace _ (by simp [Expr.children])) ho rfl hb
  | binary hl hr _ hu hwl hwr =>
    subst hu
    exact inPlace_binary (hplace _ (by simp [Expr.children])) (hplace _ (by simp [Expr.children])) hl hr
      (hwl.converted int_of_unified.1) (hwr.converted int_of_unified.2) rfl hb
  | binaryError hl hr _ =>
    exact inPlace_binary (hplace _ (by simp [Expr.children])) (hplace _ (by simp [Expr.children])) hl hr .keep .keep
      rfl hb
  | assign ht hv hruling hw =>
    exact inPlace_assign (hplace _ (by simp [Expr.children])) (hplace _ (by simp [Expr.children])) ht hv
      (hw.converted (assignRuling_accept hruling).1) hb
  | assignError _ ht hv _ =>
    exact inPlace_assign (hplace _ (by simp [Expr.children])) (hplace _ (by simp [Expr.children])) ht hv .keep hb
  | initList helements => exact inPlace_initList hplace helements hb
  | intToFloat ho => exact inPlace_intToFloat (hplace _ (by simp [Expr.children])) ho hb

theorem inPlace (N : Nat) (e : Expr) : InPlace N e := by
  induction e using Expr.induct_children with
  | h e ih => exact fun _ _ _ _ _ _ h hb => h.inPlace_of_children ih hb

end Expressions

/-! ## Variables -/

/-- An expression that may be absent is checked in its place. -/
theorem ElaboratesOption.inPlace {o o' : Option Expr} (h : ElaboratesOption env n o o' n' errors) (x : Entry)
    (hb : Bound N (Expr.entriesOption x.id o')) (front back : List Expr)
    (hlen : (front ++ o.toList ++ back).length = x.exprs.length) :
    Reworks N (Expr.editsOption o o') n (x.carrying (front ++ o.toList ++ back))
      (x.carrying (front ++ o'.toList ++ back)) n' := by
  cases h with
  | none => exact .nil
  | @some e _ e' _ _ _ _ he hc _ =>
    rw [List.append_assoc] at hlen
    rw [List.append_assoc, List.append_assoc]
    exact (Typing.inPlace N e).settled he hc x hb front back hlen

/-- A variable gets another type, or keeps the one it has. -/
theorem reworks_resize (d : VarDecl) (t : Ty) (q : NodeId) (cs : List Expr) :
    Reworks N (if t = d.ty then [] else [.resize d.id t]) n ((d.entry q).carrying cs)
      ((VarDecl.entry q { d with ty := t }).carrying cs) n := by
  split_ifs with ht
  · rw [ht]
    exact .nil
  · have happly : ∀ a : Arena, (Edit.resize d.id t).apply a = a.modifyDecl d.id fun n => { n with ty := t } :=
      fun _ => rfl
    exact .root rfl (.decl happly (fun _ => trivial) _)

/-- The check of a variable takes place in its initial value, and last in its type. -/
theorem ElaboratesInit.inPlace {d d' : VarDecl} {q : NodeId} (h : ElaboratesInit env n d d' n' errors)
    (hb : Bound N (d'.entries q)) : Reworks N (d.edits d') n (d.entries q) (d'.entries q) n' := by
  rw [VarDecl.entries, bound_append] at hb
  rw [VarDecl.entries_carrying, VarDecl.entries_carrying, VarDecl.edits]
  cases h with
  | none hinit =>
    rw [hinit]
    exact reworks_resize d d.ty q []
  | @value e _ e' _ _ _ _ _ hinit _ he hc _ =>
    have hlen : [e].length = (d.entry q).exprs.length := by rw [d.exprs_entry, hinit]; rfl
    have hvalue := (Typing.inPlace N e).settled he hc (d.entry q) hb.1 [] [] hlen
    rw [List.nil_append, List.nil_append, VarDecl.carrying_init hinit e'] at hvalue
    rw [hinit]
    exact hvalue.append (reworks_resize { d with init := some e' } d.ty q [e'])
  | @list element size info elements elements' t _ _ _ _ hinit _ hall _ =>
    let list : Expr := .initList (info.typed t) elements'
    have helements := inPlace_initList (fun e _ => Typing.inPlace N e) hall hb.1
    have hvalue := Reworks.child (x := d.entry q) helements rfl [] []
    rw [List.nil_append, List.nil_append, VarDecl.carrying_init hinit list] at hvalue
    -- nothing is put around a list
    have hedits : Expr.editsOption (some (.initList info elements)) (some list) =
        (Expr.initList info elements).edits list := List.append_nil _
    rw [hinit, hedits]
    exact hvalue.append (reworks_resize { d with init := some list } t q [list])

theorem ElaboratesVars.inPlace {ds ds' : List VarDecl} {q : NodeId} (h : ElaboratesVars env n ds ds' env' n' errors)
    (hb : Bound N (ds'.flatMap (VarDecl.entries q))) : Reworks N (List.zipWith VarDecl.edits ds ds').flatten n
      (ds.flatMap (VarDecl.entries q)) (ds'.flatMap (VarDecl.entries q)) n' := by
  induction h with
  | nil => exact .nil
  | cons hinit _ ih =>
    rw [List.flatMap_cons, bound_append] at hb
    exact (hinit.inPlace hb.1).beside (ih hb.2)

/-! ## Statements -/

/-- The condition of a `for` loop is checked in its place, once it is put there if it is omitted. -/
theorem ElaboratesForCondition.inPlace {info : StmtInfo} {cond : Option Expr} {cond' : Expr}
    (h : ElaboratesForCondition env n info.span cond cond' n' errors) (hb : Bound N (cond'.entries (.stmt info.id)))
    (init update : Option Expr) (body : Stmt) (q : NodeId) : Reworks N (Stmt.editsCondition info cond (some cond')) n
      (((Stmt.forStmt info init cond update body).entry q).carrying (init.toList ++ cond.toList ++ update.toList))
      (((Stmt.forStmt info init (some cond') update body).entry q).carrying (init.toList ++ [cond'] ++ update.toList))
      n' := by
  cases h with
  | omitted =>
    let cond : Expr := .literal ⟨⟨n⟩, info.span, none⟩ (.boolean "true")
    let cond' : Expr := .literal ⟨⟨n⟩, info.span, some .boolean⟩ (.boolean "true")
    let x := (Stmt.forStmt info init none update body).entry q
    let x' := (Stmt.forStmt info init (some cond) update body).entry q
    have hfill : Reworks N [.fill info.id] n (x.carrying (init.toList ++ [] ++ update.toList))
        (x'.carrying (init.toList ++ [cond] ++ update.toList)) (n + 1) := by
      have hx : x.exprs = (init.toList ++ [] ++ update.toList).map Expr.id := Stmt.exprs_entry _ q
      have hx' : x'.exprs = (init.toList ++ [cond] ++ update.toList).map Expr.id := Stmt.exprs_entry _ q
      have hbase : Reworks N [.fill info.id] n [x] [cond.entry (.stmt info.id), x'] (n + 1) := .fill rfl
      rw [Entry.carrying_own hx, Entry.carrying_own hx', List.append_assoc, List.append_assoc, List.flatMap_append,
        List.flatMap_append, List.flatMap_append, List.flatMap_append]
      refine (hbase.frame (init.toList.flatMap (Expr.entries x.id) ++ [] ++
        update.toList.flatMap (Expr.entries x.id))).perm ?_ ?_
      · exact perm_gather [] [x] _ _ _
      · exact perm_gather [cond.entry (.stmt info.id)] [x'] _ _ _
    have hcond : Elaborates env (n + 1) cond cond' (n + 1) [] := .literal
    have hchild := (Typing.inPlace N cond).child hcond x' hb init.toList update.toList
    rw [List.append_cons init.toList cond, List.append_cons init.toList cond'] at hchild
    exact hfill.append hchild
  | @given cond cond' _ _ _ hcond _ =>
    have hroot : (Stmt.forStmt info init (some cond') update body).entry q =
        (Stmt.forStmt info init (some cond) update body).entry q := by
      rw [Stmt.entry, Stmt.kind, Option.map_some, hcond.id]
      rfl
    have hchild := (Typing.inPlace N cond).child hcond ((Stmt.forStmt info init (some cond) update body).entry q) hb
      init.toList update.toList
    rw [List.append_cons init.toList cond, List.append_cons init.toList cond'] at hchild
    rw [hroot]
    exact hchild

/-- The edits of a check make of the nodes of a statement those of the checked one. -/
def InPlaceStmt (N : Nat) (s : Stmt) : Prop := ∀ ⦃env n s' n' errors q⦄, ElaboratesStmt env n s s' n' errors →
  Bound N (s'.entries q) → Reworks N (s.edits s') n (s.entries q) (s'.entries q) n'

theorem ElaboratesStmts.inPlace {ss ss' : List Stmt} {q : NodeId} (h : ElaboratesStmts env n ss ss' n' errors)
    (hplace : ∀ s ∈ ss, InPlaceStmt N s) (hb : Bound N (Stmt.entriesAll q ss')) :
    Reworks N (Stmt.editsAll ss ss') n (Stmt.entriesAll q ss) (Stmt.entriesAll q ss') n' := by
  induction ss generalizing n ss' errors with
  | nil =>
    cases h
    exact .nil
  | cons s ss ih =>
    cases h with
    | cons hs _ hrest =>
      rw [Stmt.entriesAll, bound_append] at hb
      exact (hplace s (by simp) hs hb.1).beside (ih hrest (fun s hs => hplace s (by simp [hs])) hb.2)

theorem inPlace_compound {info : StmtInfo} {decls decls' : List VarDecl} {stmts stmts' : List Stmt} {q : NodeId}
    {more : List Error} (hvars : ElaboratesVars env n decls decls' env' n₁ errors)
    (hstmts : ElaboratesStmts env' n₁ stmts stmts' n' more) (hplace : ∀ s ∈ stmts, InPlaceStmt N s)
    (hb : Bound N ((Stmt.compound info decls' stmts').entries q)) :
    Reworks N ((Stmt.compound info decls stmts).edits (.compound info decls' stmts')) n
      ((Stmt.compound info decls stmts).entries q) ((Stmt.compound info decls' stmts').entries q) n' := by
  have hroot : (Stmt.compound info decls' stmts').entry q = (Stmt.compound info decls stmts).entry q := by
    rw [Stmt.entry, Stmt.kind, hvars.ids, hstmts.ids]
    rfl
  rw [Stmt.entries, bound_append, bound_append] at hb
  rw [Stmt.entries, Stmt.entries, hroot]
  exact ((hvars.inPlace hb.1.1).beside (hstmts.inPlace hplace hb.1.2)).frame _

section Loop

variable {info : StmtInfo} {init init' cond update update' : Option Expr} {body : Stmt} {q : NodeId}

/-- Other clauses stand in the places of those that there were. -/
theorem ElaboratesOption.carrying_init (h : ElaboratesOption env n init init' n' errors) (cs : List Expr) :
    ((Stmt.forStmt info init cond update body).entry q).carrying cs =
      ((Stmt.forStmt info init' cond update body).entry q).carrying cs := by
  cases h <;> rfl

theorem ElaboratesOption.carrying_update (h : ElaboratesOption env n update update' n' errors) (cs : List Expr) :
    ((Stmt.forStmt info init cond update body).entry q).carrying cs =
      ((Stmt.forStmt info init cond update' body).entry q).carrying cs := by
  cases h <;> rfl

/-- The nodes of a loop are those of its clauses, the loop itself and those of its body. -/
theorem perm_forStmt : (((Stmt.forStmt info init cond update body).entry q).carrying
    (init.toList ++ cond.toList ++ update.toList) ++ body.entries (.stmt info.id)).Perm
      ((Stmt.forStmt info init cond update body).entries q) := by
  have hexprs : ((Stmt.forStmt info init cond update body).entry q).exprs =
      (init.toList ++ cond.toList ++ update.toList).map Expr.id := Stmt.exprs_entry _ q
  rw [Entry.carrying_own hexprs, Stmt.entries, Expr.entriesOption_eq, Expr.entriesOption_eq, Expr.entriesOption_eq,
    ← List.flatMap_append, ← List.flatMap_append, List.append_assoc (List.flatMap _ _) [_],
    List.append_assoc (List.flatMap _ _) (body.entries _)]
  exact .append_left _ List.perm_append_comm

/-- The clauses of a loop are checked in the order in which they stand. -/
theorem inPlace_clauses (body : Stmt) (q : NodeId) {cond' : Expr} {first second third : List Error} {n₃ : Nat}
    (hinit : ElaboratesOption env n init init' n₁ first)
    (hcond : ElaboratesForCondition env n₁ info.span cond cond' n₂ second)
    (hupdate : ElaboratesOption env n₂ update update' n₃ third)
    (hb : Bound N (Expr.entriesOption (.stmt info.id) init' ++ cond'.entries (.stmt info.id) ++
      Expr.entriesOption (.stmt info.id) update')) :
    Reworks N (Expr.editsOption init init' ++ Stmt.editsCondition info cond (some cond') ++
        Expr.editsOption update update') n
      (((Stmt.forStmt info init cond update body).entry q).carrying (init.toList ++ cond.toList ++ update.toList))
      (((Stmt.forStmt info init' (some cond') update' body).entry q).carrying
        (init'.toList ++ [cond'] ++ update'.toList)) n₃ := by
  rw [bound_append, bound_append] at hb
  have hfirst := hinit.inPlace ((Stmt.forStmt info init cond update body).entry q) hb.1.1 []
    (cond.toList ++ update.toList) (by
      rw [Stmt.exprs_entry, List.length_map, List.nil_append, ← List.append_assoc]
      rfl)
  rw [List.nil_append, List.nil_append, ← List.append_assoc, ← List.append_assoc,
    hinit.carrying_init (init'.toList ++ cond.toList ++ update.toList)] at hfirst
  have hsecond := hcond.inPlace hb.1.2 init' update body q
  have hthird := hupdate.inPlace ((Stmt.forStmt info init' (some cond') update body).entry q) hb.2
    (init'.toList ++ [cond']) [] (by
      rw [Stmt.exprs_entry, List.length_map, List.append_nil]
      rfl)
  rw [List.append_nil, List.append_nil, hupdate.carrying_update (init'.toList ++ [cond'] ++ update'.toList)] at hthird
  exact (hfirst.append hsecond).append hthird

end Loop

theorem inPlace_returnStmt {info : StmtInfo} {value value' : Option Expr} {q : NodeId}
    (h : ElaboratesOption env n value value' n' errors) (hb : Bound N ((Stmt.returnStmt info value').entries q)) :
    Reworks N ((Stmt.returnStmt info value).edits (.returnStmt info value')) n
      ((Stmt.returnStmt info value).entries q) ((Stmt.returnStmt info value').entries q) n' := by
  have hexprs (o : Option Expr) : ((Stmt.returnStmt info o).entry q).exprs = o.toList.map Expr.id :=
    Stmt.exprs_entry _ q
  have hentries (o : Option Expr) : (Stmt.returnStmt info o).entries q =
      ((Stmt.returnStmt info o).entry q).carrying o.toList := by
    rw [Entry.carrying_own (hexprs o), Stmt.entries, Expr.entriesOption_eq]
    rfl
  have hroot : ((Stmt.returnStmt info value').entry q).carrying value'.toList =
      ((Stmt.returnStmt info value).entry q).carrying value'.toList := by
    cases h <;> rfl
  rw [Stmt.entries, bound_append] at hb
  have hvalue := h.inPlace ((Stmt.returnStmt info value).entry q) hb.1 [] [] (by
    rw [hexprs, List.length_map, List.append_nil]
    rfl)
  rw [List.nil_append, List.append_nil, List.nil_append, List.append_nil] at hvalue
  rw [hentries, hentries, hroot]
  exact hvalue

/-- What is made of the statements under a statement is made of the whole. -/
theorem ElaboratesStmt.inPlace_of_stmts {s s' : Stmt} {q : NodeId} (h : ElaboratesStmt env n s s' n' errors)
    (hplace : ∀ t ∈ s.stmts, InPlaceStmt N t) (hb : Bound N (s'.entries q)) :
    Reworks N (s.edits s') n (s.entries q) (s'.entries q) n' := by
  cases h with
  | compound hvars hstmts => exact inPlace_compound hvars hstmts hplace hb
  | ifThen hc _ ht =>
    rw [Stmt.entries, bound_append, bound_append] at hb
    rw [Stmt.entries, Stmt.entries, Stmt.entry, Stmt.entry, Stmt.kind, Stmt.kind, hc.id, ht.id]
    exact ((Typing.inPlace N _ hc hb.1.1).beside (hplace _ (by simp [Stmt.stmts]) ht hb.1.2)).frame _
  | ifElse hc _ ht he =>
    rw [Stmt.entries, bound_append, bound_append, bound_append] at hb
    rw [Stmt.entries, Stmt.entries, Stmt.entry, Stmt.entry, Stmt.kind, Stmt.kind, hc.id, ht.id, he.id]
    have hthen := hplace _ (by simp [Stmt.stmts]) ht hb.1.1.2
    have helse := hplace _ (by simp [Stmt.stmts]) he hb.1.2
    exact (((Typing.inPlace N _ hc hb.1.1.1).beside hthen).beside helse).frame _
  | whileStmt hc _ hbody =>
    rw [Stmt.entries, bound_append, bound_append] at hb
    rw [Stmt.entries, Stmt.entries, Stmt.entry, Stmt.entry, Stmt.kind, Stmt.kind, hc.id, hbody.id]
    exact ((Typing.inPlace N _ hc hb.1.1).beside (hplace _ (by simp [Stmt.stmts]) hbody hb.1.2)).frame _
  | @forStmt _ _ _ _ _ _ info _ init' _ _ update' cond' body body' _ _ _ _ hinit hcond hupdate hbody =>
    rw [Stmt.entries, bound_append, bound_append] at hb
    have hroot : (Stmt.forStmt info init' (some cond') update' body').entry q =
        (Stmt.forStmt info init' (some cond') update' body).entry q := by
      rw [Stmt.entry, Stmt.kind, hbody.id]
      rfl
    have hclauses := inPlace_clauses body q hinit hcond hupdate hb.1.1
    rw [← hroot] at hclauses
    exact (hclauses.beside (hplace body (by simp [Stmt.stmts]) hbody hb.1.2)).perm perm_forStmt perm_forStmt
  | breakStmt | continueStmt | emptyStmt => exact .nil
  | returnStmt hv => exact inPlace_returnStmt hv hb
  | exprStmt he =>
    rw [Stmt.entries, bound_append] at hb
    rw [Stmt.entries, Stmt.entries, Stmt.entry, Stmt.entry, Stmt.kind, Stmt.kind, he.id]
    exact (Typing.inPlace N _ he hb.1).frame _

theorem inPlaceStmt (N : Nat) (s : Stmt) : InPlaceStmt N s := by
  induction s using Stmt.induct_stmts with
  | h s ih => exact fun _ _ _ _ _ _ h hb => h.inPlace_of_stmts ih hb

/-! ## Programs -/

/-- A function is checked in its body, and then gets the mark that says whether it always returns. -/
theorem ElaboratesFunction.inPlace {f f' : Function} (h : ElaboratesFunction env n f f' n' errors)
    (hb : Bound N f'.entries) : Reworks N (f.edits f') n f.entries f'.entries n' := by
  cases h with
  | @mk _ _ decls' stmts' hasReturn _ _ _ _ _ _ _ hvars hstmts _ =>
    rw [Function.entries, bound_append, bound_append] at hb
    have hbody := inPlace_compound hvars hstmts (fun s _ => inPlaceStmt N s) hb.1.2
    have happly : ∀ a : Arena, (Edit.setReturns f.id hasReturn).apply a =
        a.modifyDecl f.id fun n => { n with kind := n.kind.setReturns hasReturn } := fun _ => rfl
    have hmark := Reworks.decl (N := N) (n := n') happly (fun _ => trivial)
      ⟨.func (f.params.map Param.id) (some f.body.id) f.hasReturn, f.ident, f.ty, f.span, some .program⟩
    rw [Function.entries, Function.entries]
    exact (hbody.behind _).beside hmark

theorem ElaboratesTops.inPlace {ds ds' : List TopDecl} (h : ElaboratesTops env n ds ds' n' errors)
    (hb : Bound N (ds'.flatMap TopDecl.entries)) : Reworks N (List.zipWith TopDecl.edits ds ds').flatten n
      (ds.flatMap TopDecl.entries) (ds'.flatMap TopDecl.entries) n' := by
  induction h with
  | nil => exact .nil
  | func hf _ ih =>
    rw [List.flatMap_cons, bound_append] at hb
    exact (hf.inPlace hb.1).beside (ih hb.2)
  | var hinit _ ih =>
    rw [List.flatMap_cons, bound_append] at hb
    exact (hinit.inPlace hb.1).beside (ih hb.2)

end Typing

end VCLang
