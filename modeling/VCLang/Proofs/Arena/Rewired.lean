/-
A conversion that is put in changes one edge. Each sort of node has places for expressions; what a node lists as its
parts, what is read from the places and what is overwritten in them are the same places in the same order. So the
conversion comes to stand just where the expression stood, whatever that was a part of, no other field of any node
changes, and links that agreed before agree behind.
-/
import VCLang.Proofs.Arena.Ancestors
namespace VCLang

/-! ## Places for expressions -/

/-- The places for expressions in nodes of some sort: what stands in them, in order, and the node with other
expressions in them. Nothing but what stands in the places changes when they are written. -/
structure Places (κ : Type) where
  read : κ → List ExprId
  write : κ → List ExprId → κ
  read_write : ∀ k es, es.length = (read k).length → read (write k es) = es
  write_read : ∀ k, write k (read k) = k
  write_write : ∀ k es fs, es.length = (read k).length → fs.length = (read k).length →
    write (write k es) fs = write k fs

/-- An expression with others for its parts. -/
def ExprKind.withExprs : ExprKind → List ExprId → ExprKind
  | binary op _ _, [left, right] => binary op left right
  | unary op _, [operand] => unary op operand
  | assign _ _, [target, value] => assign target value
  | arrayAccess ident _, [index] => arrayAccess ident index
  | call ident _, args => call ident args
  | initList _, elements => initList elements
  | intToFloat _, [operand] => intToFloat operand
  | k, _ => k

/-- A statement with other expressions. The clauses of a `for` loop that are there take them in order. -/
def StmtKind.withExprs : StmtKind → List ExprId → StmtKind
  | ifStmt _ thenBranch elseBranch, [cond] => ifStmt cond thenBranch elseBranch
  | whileStmt _ body, [cond] => whileStmt cond body
  | forStmt init cond update body, es =>
    let behindInit := es.drop init.toList.length
    let behindCond := behindInit.drop cond.toList.length
    forStmt (init.bind fun _ => es.head?) (cond.bind fun _ => behindInit.head?)
      (update.bind fun _ => behindCond.head?) body
  | returnStmt value, es => returnStmt (value.bind fun _ => es.head?)
  | exprStmt _, [expr] => exprStmt expr
  | k, _ => k

/-- A declaration with another initial value, if it has one. -/
def DeclKind.withExprs : DeclKind → List ExprId → DeclKind
  | globalVar init, es => globalVar (init.bind fun _ => es.head?)
  | localVar init, es => localVar (init.bind fun _ => es.head?)
  | k, _ => k

/-- The places for expressions in an expression. -/
def ExprKind.places : Places ExprKind where
  read := children
  write := withExprs
  read_write k es h := by
    cases k with
    | binary | assign =>
      obtain ⟨_, _, rfl⟩ := List.length_eq_two.1 h
      rfl
    | unary | arrayAccess | intToFloat =>
      obtain ⟨_, rfl⟩ := List.length_eq_one_iff.1 h
      rfl
    | call | initList => rfl
    | var | literal => exact (List.length_eq_zero_iff.1 h).symm
  write_read k := by cases k <;> rfl
  write_write k es fs hes hfs := by
    cases k with
    | binary | assign =>
      obtain ⟨_, _, rfl⟩ := List.length_eq_two.1 hes
      obtain ⟨_, _, rfl⟩ := List.length_eq_two.1 hfs
      rfl
    | unary | arrayAccess | intToFloat =>
      obtain ⟨_, rfl⟩ := List.length_eq_one_iff.1 hes
      obtain ⟨_, rfl⟩ := List.length_eq_one_iff.1 hfs
      rfl
    | call | initList | var | literal => rfl

/-- The places for expressions in a statement. -/
def StmtKind.places : Places StmtKind where
  read := exprs
  write := withExprs
  read_write k es h := by
    cases k with
    | ifStmt | whileStmt | exprStmt =>
      obtain ⟨_, rfl⟩ := List.length_eq_one_iff.1 h
      rfl
    | forStmt init cond update body =>
      rcases init with _ | _ <;> rcases cond with _ | _ <;> rcases update with _ | _ <;>
        rcases es with _ | ⟨_, _ | ⟨_, _ | ⟨_, _ | _⟩⟩⟩ <;> first | rfl | cases h
    | returnStmt value =>
      rcases value with _ | _ <;> rcases es with _ | ⟨_, _ | _⟩ <;> first | rfl | cases h
    | compound | breakStmt | continueStmt | emptyStmt => exact (List.length_eq_zero_iff.1 h).symm
  write_read k := by
    cases k with
    | forStmt init cond update body =>
      rcases init with _ | _ <;> rcases cond with _ | _ <;> rcases update with _ | _ <;> rfl
    | returnStmt value => cases value <;> rfl
    | _ => rfl
  write_write k es fs hes hfs := by
    cases k with
    | ifStmt | whileStmt | exprStmt =>
      obtain ⟨_, rfl⟩ := List.length_eq_one_iff.1 hes
      obtain ⟨_, rfl⟩ := List.length_eq_one_iff.1 hfs
      rfl
    | forStmt init cond update body =>
      rcases init with _ | _ <;> rcases cond with _ | _ <;> rcases update with _ | _ <;>
        rcases es with _ | ⟨_, _ | ⟨_, _ | ⟨_, _ | _⟩⟩⟩ <;> first | rfl | cases hes
    | returnStmt value =>
      rcases value with _ | _ <;> rcases es with _ | ⟨_, _ | _⟩ <;> first | rfl | cases hes
    | compound | breakStmt | continueStmt | emptyStmt => rfl

/-- The place for an expression in a declaration. -/
def DeclKind.places : Places DeclKind where
  read k := k.init?.toList
  write := withExprs
  read_write k es h := by
    cases k with
    | globalVar init | localVar init =>
      rcases init with _ | _ <;> rcases es with _ | ⟨_, _ | _⟩ <;> first | rfl | cases h
    | func | param => exact (List.length_eq_zero_iff.1 h).symm
  write_read k := by
    cases k with
    | globalVar init | localVar init => cases init <;> rfl
    | func | param => rfl
  write_write k es fs hes hfs := by
    cases k with
    | globalVar init | localVar init =>
      rcases init with _ | _ <;> rcases es with _ | ⟨_, _ | _⟩ <;> first | rfl | cases hes
    | func | param => rfl

/-! ## One place overwritten -/

/-- A node with a new expression in the first of its places that holds an old one. -/
def Places.redirect {κ : Type} (v : Places κ) (old new : ExprId) (k : κ) : κ := v.write k ((v.read k).replace old new)

/-- The places are where a node names its expressions among its parts, and a replacement overwrites the first of them
that holds the old expression. -/
structure Places.Match {κ : Type} (v : Places κ) (parts : κ → List NodeId) (replace : ExprId → ExprId → κ → κ) :
    Prop where
  read_eq : ∀ k, v.read k = (parts k).filterMap NodeId.expr?
  replace_eq : ∀ old new k, replace old new k = v.redirect old new k
  parts_replace : ∀ old new k, parts (replace old new k) = (parts k).replace (.expr old) (.expr new)

theorem filterMap_replace (l : List NodeId) (old new : ExprId) :
    (l.replace (.expr old) (.expr new)).filterMap NodeId.expr? = (l.filterMap NodeId.expr?).replace old new := by
  have hcons (id : ExprId) (l : List NodeId) :
      (.expr id :: l).filterMap NodeId.expr? = id :: l.filterMap NodeId.expr? := List.filterMap_cons_some rfl
  induction l with
  | nil => rfl
  | cons x l ih =>
    cases x with
    | expr id =>
      rw [replace_expr_cons, hcons]
      split_ifs with h
      · rw [h, hcons, List.replace_cons_self]
      · rw [hcons, ih, List.replace_cons, beq_false_of_ne (Ne.symm h)]
    | _ =>
      rw [List.replace_cons, beq_false_of_ne NodeId.noConfusion]
      exact ih

/-- A replacement that replaces the old expression in the list of parts overwrites its place, if nothing changes but
what stands in the places. -/
theorem Places.match_of {κ : Type} {v : Places κ} {parts : κ → List NodeId} {replace : ExprId → ExprId → κ → κ}
    (hread : ∀ k, v.read k = (parts k).filterMap NodeId.expr?)
    (hparts : ∀ old new k, parts (replace old new k) = (parts k).replace (.expr old) (.expr new))
    (hrest : ∀ old new k, v.write k (v.read (replace old new k)) = replace old new k) : v.Match parts replace where
  read_eq := hread
  replace_eq old new k := by rw [redirect, hread k, ← filterMap_replace, ← hparts, ← hread, hrest]
  parts_replace := hparts

theorem ExprKind.places_match : places.Match (fun k => k.children.map .expr) replaceChild := by
  refine Places.match_of (fun k => ?_) (fun old new k => ?_) fun old new k => ?_
  · rw [List.filterMap_map]
    exact List.filterMap_some.symm
  · rw [children_replaceChild, map_replace expr_injective]
  · cases k with
    | binary | assign =>
      simp only [replaceChild]
      split_ifs <;> rfl
    | _ => rfl

theorem StmtKind.places_match : places.Match children replaceExpr := by
  refine Places.match_of (fun k => ?_) children_replaceExpr fun old new k => ?_
  · cases k with
    | compound decls stmts => simp [places, exprs, children, NodeId.expr?]
    | ifStmt cond thenBranch elseBranch => cases elseBranch <;> rfl
    | forStmt init cond update body => cases init <;> cases cond <;> cases update <;> rfl
    | returnStmt value => cases value <;> rfl
    | _ => rfl
  · cases k with
    | forStmt init cond update body =>
      rcases init with _ | i <;> rcases cond with _ | c <;> rcases update with _ | u <;>
        simp only [replaceExpr, Option.some.injEq, reduceCtorEq, if_false] <;>
        first | rfl | (split_ifs <;> rfl)
    | returnStmt value =>
      cases value with
      | none => rfl
      | some e =>
        simp only [replaceExpr]
        split_ifs <;> rfl
    | _ => rfl

theorem DeclKind.places_match : places.Match children replaceInit := by
  refine Places.match_of (fun k => ?_) children_replaceInit fun old new k => ?_
  · cases k with
    | func params body hasReturn => cases body <;> simp [places, init?, children, NodeId.expr?]
    | globalVar init | localVar init => cases init <;> rfl
    | param => rfl
  · cases k with
    | globalVar init | localVar init =>
      cases init with
      | none => rfl
      | some e =>
        simp only [replaceInit]
        split_ifs <;> rfl
    | _ => rfl

/-! ## One edge changed -/

namespace Arena

/-- A second flat form is the first with a conversion put in the place of an expression. It is appended, and between
the expression and what this was part of; no other field of any node changes. -/
structure Rewired (a b : Arena) (w e : ExprId) : Prop where
  exprs_size : b.exprs.size = a.exprs.size + 1
  stmts_size : b.stmts.size = a.stmts.size
  decls_size : b.decls.size = a.decls.size
  program : b.program = a.program
  span : b.span = a.span
  next : w = ⟨a.exprs.size⟩
  /-- The conversion has the span of the expression and the parent that this had. -/
  conversion : ∃ n, a.expr? e = some n ∧ b.expr? w = some ⟨.intToFloat e, n.span, n.parent, some .float⟩
  part : b.parentOf (.expr e) = some (.expr w)
  expr? : ∀ id ≠ w, b.expr? id = (a.expr? id).map fun n =>
    { n with
      kind := if a.parentOf (.expr e) = some (.expr id) then ExprKind.places.redirect e w n.kind else n.kind
      parent := if e = id then some (.expr w) else n.parent }
  stmt? : ∀ id, b.stmt? id = (a.stmt? id).map fun n =>
    { n with
      kind := if a.parentOf (.expr e) = some (.stmt id) then StmtKind.places.redirect e w n.kind else n.kind }
  decl? : ∀ id, b.decl? id = (a.decl? id).map fun n =>
    { n with
      kind := if a.parentOf (.expr e) = some (.decl id) then DeclKind.places.redirect e w n.kind else n.kind }
  /-- What the expression was part of lists the conversion just where it listed the expression. -/
  replaced : ∀ q, a.parentOf (.expr e) = some q → ∃ front back, a.childrenOf q = front ++ .expr e :: back ∧
    .expr e ∉ front ++ back ∧ b.childrenOf q = front ++ .expr w :: back
  kept : ∀ x, x ≠ .expr w → a.parentOf (.expr e) ≠ some x → b.childrenOf x = a.childrenOf x
  consistent : b.Consistent

variable {a : Arena} {e : ExprId}

theorem expr?_wrapIntToFloat {id : ExprId} (hid : id ≠ ⟨a.exprs.size⟩) :
    (a.wrapIntToFloat e).2.expr? id = (a.expr? id).map fun n =>
      { n with
        kind := if a.parentOf (.expr e) = some (.expr id) then n.kind.replaceChild e ⟨a.exprs.size⟩ else n.kind
        parent := if e = id then some (.expr ⟨a.exprs.size⟩) else n.parent } := by
  cases hparent : a.parentOf (.expr e) with
  | none =>
    rw [wrapIntToFloat_eq_of_none hparent, expr?_converting, if_neg hid]
    congr 1
    funext n
    simp only [reduceCtorEq, if_false]
    split_ifs <;> rfl
  | some q =>
    rw [wrapIntToFloat_eq hparent, expr?_replaceChild, expr?_converting, if_neg hid, Option.map_map]
    congr 1
    funext n
    simp only [Function.comp_apply, Option.some.injEq, eq_comm (a := q)]
    split_ifs <;> rfl

theorem stmt?_wrapIntToFloat (a : Arena) (e : ExprId) (id : StmtId) :
    (a.wrapIntToFloat e).2.stmt? id = (a.stmt? id).map fun n =>
      { n with
        kind := if a.parentOf (.expr e) = some (.stmt id) then n.kind.replaceExpr e ⟨a.exprs.size⟩ else n.kind } := by
  have hconverting : (a.converting e).stmt? id = a.stmt? id := rfl
  cases hparent : a.parentOf (.expr e) with
  | none =>
    rw [wrapIntToFloat_eq_of_none hparent, hconverting]
    exact Option.map_id'.symm
  | some q =>
    rw [wrapIntToFloat_eq hparent, stmt?_replaceChild, hconverting]
    congr 1
    funext n
    simp only [Option.some.injEq, eq_comm (a := q)]
    split_ifs <;> rfl

theorem decl?_wrapIntToFloat (a : Arena) (e : ExprId) (id : DeclId) :
    (a.wrapIntToFloat e).2.decl? id = (a.decl? id).map fun n =>
      { n with
        kind := if a.parentOf (.expr e) = some (.decl id) then n.kind.replaceInit e ⟨a.exprs.size⟩ else n.kind } := by
  have hconverting : (a.converting e).decl? id = a.decl? id := rfl
  cases hparent : a.parentOf (.expr e) with
  | none =>
    rw [wrapIntToFloat_eq_of_none hparent, hconverting]
    exact Option.map_id'.symm
  | some q =>
    rw [wrapIntToFloat_eq hparent, decl?_replaceChild, hconverting]
    congr 1
    funext n
    simp only [Option.some.injEq, eq_comm (a := q)]
    split_ifs <;> rfl

theorem expr?_wrapIntToFloat_self {n : ExprNode} (hn : a.expr? e = some n)
    (hparent : a.parentOf (.expr e) ≠ some (.expr ⟨a.exprs.size⟩)) :
    (a.wrapIntToFloat e).2.expr? ⟨a.exprs.size⟩ = some ⟨.intToFloat e, n.span, n.parent, some .float⟩ := by
  have hself : (a.converting e).expr? ⟨a.exprs.size⟩ = some ⟨.intToFloat e, n.span, n.parent, some .float⟩ := by
    rw [expr?_converting, if_pos rfl, parentOf, hn]
    rfl
  cases hq : a.parentOf (.expr e) with
  | none => rw [wrapIntToFloat_eq_of_none hq, hself]
  | some q =>
    have hne : NodeId.expr ⟨a.exprs.size⟩ ≠ q := fun heq => hparent (hq.trans (congrArg some heq.symm))
    rw [wrapIntToFloat_eq hq, expr?_replaceChild, hself, Option.map_some, if_neg hne]

theorem between_wrapIntToFloat (ha : a.Consistent) (he : a.Contains (.expr e)) :
    Between a (a.wrapIntToFloat e).2 ⟨a.exprs.size⟩ e := by
  cases hparent : a.parentOf (.expr e) with
  | none =>
    rw [wrapIntToFloat_eq_of_none hparent]
    refine ⟨Nat.lt_irrefl _, parentOf_converting he, fun x => ?_⟩
    simp only [childrenOf_converting, hparent, reduceCtorEq, if_false]
  | some q =>
    have hq : a.Contains q := contains_of_childrenOf (ha.mem_childrenOf _ _ hparent)
    have h := (interposed_wrapIntToFloat hparent hq).between
    rwa [wrapIntToFloat_eq hparent] at h ⊢

/-- In a flat form whose links agree, an expression that is wrapped is put under a conversion, which is put in its
place. -/
theorem Consistent.rewired (ha : a.Consistent) (he : a.Contains (.expr e)) :
    Rewired a (a.wrapIntToFloat e).2 ⟨a.exprs.size⟩ e := by
  have hbetween := between_wrapIntToFloat ha he
  have hparent {q : NodeId} (hq : a.parentOf (.expr e) = some q) : q ≠ .expr ⟨a.exprs.size⟩ := fun heq =>
    hbetween.new (heq ▸ contains_of_childrenOf (ha.mem_childrenOf _ _ hq))
  have hne : NodeId.expr e ≠ .expr ⟨a.exprs.size⟩ := fun heq => hbetween.new (heq ▸ he)
  have hn : a.expr? e = some a.exprs[e.index] := Array.getElem?_eq_getElem he
  obtain ⟨hexprs, hstmts, hdecls, hprogram, hspan⟩ := wrapIntToFloat_sizes a e
  refine ⟨hexprs, hstmts, hdecls, hprogram, hspan, rfl, ⟨_, hn, ?_⟩, ?_, fun id hid => ?_, fun id => ?_, fun id => ?_,
    fun q hq => ?_, fun x hx hq => ?_, hbetween.consistent he ha⟩
  · exact expr?_wrapIntToFloat_self hn fun hq => hparent hq rfl
  · rw [hbetween.parentOf, if_neg hne, if_pos rfl]
  · simp only [expr?_wrapIntToFloat hid, ExprKind.places_match.replace_eq]
  · simp only [stmt?_wrapIntToFloat, StmtKind.places_match.replace_eq]
  · simp only [decl?_wrapIntToFloat, DeclKind.places_match.replace_eq]
  · obtain ⟨front, back, hfrom, hnot, hto⟩ :=
      exists_replace (ha.nodup q) (ha.mem_childrenOf _ _ hq) (.expr ⟨a.exprs.size⟩)
    refine ⟨front, back, hfrom, hnot, ?_⟩
    rw [hbetween.childrenOf, if_neg (hparent hq), if_pos hq, hto]
  · rw [hbetween.childrenOf, if_neg hx, if_neg hq]

instance (a : Arena) : Decidable a.Consistent :=
  decidable_of_iff
    ((∀ x ∈ NodeId.program :: a.nodes, ∀ y ∈ a.childrenOf x, a.parentOf y = some x) ∧
      (∀ y ∈ a.nodes, ∀ x ∈ a.parentOf y, y ∈ a.childrenOf x) ∧
      ∀ x ∈ NodeId.program :: a.nodes, (a.childrenOf x).Nodup) <| by
    have hnode {x : NodeId} (hx : a.Contains x) : x ∈ NodeId.program :: a.nodes := by
      by_cases h : x = .program
      · exact h ▸ List.mem_cons_self
      · exact List.mem_cons_of_mem _ (mem_nodes hx h)
    refine ⟨fun ⟨hchild, hparent, hnodup⟩ => ⟨fun x y hy => ?_, fun x y hy => ?_, fun x => ?_⟩,
      fun h => ⟨fun x _ => h.parent_of_child x, fun y _ x => h.mem_childrenOf x y, fun x _ => h.nodup x⟩⟩
    · exact hchild x (hnode (contains_of_childrenOf hy)) y hy
    · refine hparent y (mem_nodes (contains_of_parentOf hy) ?_) x hy
      rintro rfl
      cases hy
    · by_cases hx : a.childrenOf x = []
      · exact hx ▸ List.nodup_nil
      · obtain ⟨y, hy⟩ := List.exists_mem_of_ne_nil _ hx
        exact hnodup x (hnode (contains_of_childrenOf hy))

/-- Each sort of node has its places where it names its expressions, and what a conversion overwrites is one of them;
so wrapping changes just the edge above the expression, wherever that stands. -/
theorem wrapIntToFloat_rewires :
    ExprKind.places.Match (fun k => k.children.map .expr) ExprKind.replaceChild ∧
      StmtKind.places.Match StmtKind.children StmtKind.replaceExpr ∧
      DeclKind.places.Match DeclKind.children DeclKind.replaceInit ∧
      ∀ (a : Arena) (e : ExprId), a.Consistent → a.Contains (.expr e) →
        Rewired a (a.wrapIntToFloat e).2 (a.wrapIntToFloat e).1 e :=
  ⟨ExprKind.places_match, StmtKind.places_match, DeclKind.places_match, fun _ _ => Consistent.rewired⟩

/-- The last of the clauses of a `for` loop. -/
theorem wrapIntToFloat_rewires_update :
    let ops : List Op := [.pushExpr (.literal (.int "1")) .dummy, .pushExpr (.literal (.boolean "true")) .dummy,
      .pushExpr (.literal (.int "2")) .dummy, .pushStmt .emptyStmt .dummy,
      .pushStmt (.forStmt (some ⟨0⟩) (some ⟨1⟩) (some ⟨2⟩) ⟨0⟩) .dummy]
    let a := empty.run ops
    a.Consistent ∧ a.Contains (.expr ⟨2⟩) ∧ Rewired a (a.wrapIntToFloat ⟨2⟩).2 ⟨3⟩ ⟨2⟩ ∧
      (a.wrapIntToFloat ⟨2⟩).2.childrenOf (.stmt ⟨1⟩) = [.expr ⟨0⟩, .expr ⟨1⟩, .expr ⟨3⟩, .stmt ⟨0⟩] := by
  refine ⟨by decide, by decide, ?_, by decide⟩
  exact wrapIntToFloat_rewires.2.2.2 _ ⟨2⟩ (by decide) (by decide)

end Arena

end VCLang
