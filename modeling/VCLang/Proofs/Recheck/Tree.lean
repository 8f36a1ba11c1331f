/-
What one more check does to the tree of an accepted program. It keeps every node. Names of predeclared functions come to
be bound to the new copies of these, an array may show the size that was counted behind it, and the type of every
operator becomes `error`, since a tagged operator is no operator of the language. Conversions, and everything that is
not an operator, keep their types; so nothing stands under an `error` but operators, and those of them that have no
operator for an operand are what is reported.
-/
import VCLang.Flow
import VCLang.Proofs.Arena.Links
import VCLang.Proofs.Arena.WellTyped
namespace VCLang

variable {copies : List (Prototype × Prototype)}

/-! ## Names and nodes -/

/-- Declarations that stand for the same: one and the same, or two copies of a predeclared function. -/
inductive SameDecl (copies : List (Prototype × Prototype)) : DeclId → DeclId → Prop
  | same {d : DeclId} : SameDecl copies d d
  | copy {f f' : Prototype} : (f, f') ∈ copies → SameDecl copies f.id f'.id

/-- A bound name that is bound again. -/
inductive Ident.Rebound (copies : List (Prototype × Prototype)) (i : Ident) : Ident → Prop
  | intro {d d' : DeclId} : i.decl = some d → SameDecl copies d d' → Rebound copies i (i.bindTo d')

/-- An expression as it was, but for what the name in it is bound to. -/
inductive ExprKind.Rebound (copies : List (Prototype × Prototype)) : ExprKind → ExprKind → Prop
  | same {k : ExprKind} : Rebound copies k k
  | var {i i' : Ident} : i.Rebound copies i' → Rebound copies (.var i) (.var i')
  | arrayAccess {i i' : Ident} {index : ExprId} : i.Rebound copies i' →
    Rebound copies (.arrayAccess i index) (.arrayAccess i' index)
  | call {i i' : Ident} {args : List ExprId} : i.Rebound copies i' → Rebound copies (.call i args) (.call i' args)

def ExprKind.isOperator : ExprKind → Bool
  | binary _ _ _ | unary _ _ => true
  | _ => false

/-- An expression behind one more check. -/
structure ExprNode.Rechecked (copies : List (Prototype × Prototype)) (n n' : ExprNode) : Prop where
  kind : n.kind.Rebound copies n'.kind
  span : n'.span = n.span
  parent : n'.parent = n.parent
  ty : ∃ t t', n.ty = some t ∧ n'.ty = some t' ∧ if n.kind.isOperator then t' = .error else t.SameButSize t'

/-- An operator that one more check reports, at its place and with its tag. -/
inductive ExprNode.Blames (n : ExprNode) : Error → Prop
  | unary {op : Operator} {tag : OperandTag} {operand : ExprId} : n.kind = .unary (op.tagged tag) operand →
    Blames n ⟨.incompatibleUnaryOperand (op.tagged tag).spelling, n.span⟩
  | binary {op : Operator} {tag : OperandTag} {left right : ExprId} : n.kind = .binary (op.tagged tag) left right →
    Blames n ⟨.incompatibleBinaryOperand (op.tagged tag).spelling, n.span⟩

theorem ExprNode.Blames.isOperator {n : ExprNode} {x : Error} (h : n.Blames x) : n.kind.isOperator = true := by
  cases h with
  | unary h => rw [h]; rfl
  | binary h => rw [h]; rfl

/-- A node behind one more check: statements and declarations stay as they are. -/
inductive Entry.Rechecked (copies : List (Prototype × Prototype)) : Entry → Entry → Prop
  | expr {id : ExprId} {n n' : ExprNode} : n.Rechecked copies n' → Rechecked copies (.expr id n) (.expr id n')
  | stmt {id : StmtId} {n : StmtNode} : Rechecked copies (.stmt id n) (.stmt id n)
  | decl {id : DeclId} {n : DeclNode} : Rechecked copies (.decl id n) (.decl id n)

/-! ## Trees -/

/-- An expression behind one more check. -/
inductive Expr.Rechecked (copies : List (Prototype × Prototype)) : Expr → Expr → Prop
  | binary {info : ExprInfo} {op : Operator} {tag : OperandTag} {t : Ty} {left left' right right' : Expr} :
    info.ty = some t → Rechecked copies left left' → Rechecked copies right right' →
    Rechecked copies (.binary info (op.tagged tag) left right)
      (.binary (info.typed .error) (op.tagged tag) left' right')
  | unary {info : ExprInfo} {op : Operator} {tag : OperandTag} {t : Ty} {operand operand' : Expr} :
    info.ty = some t → Rechecked copies operand operand' →
    Rechecked copies (.unary info (op.tagged tag) operand) (.unary (info.typed .error) (op.tagged tag) operand')
  | assign {info : ExprInfo} {t : Ty} {target target' value value' : Expr} : info.ty = some t →
    Rechecked copies target target' → Rechecked copies value value' →
    Rechecked copies (.assign info target value) (.assign info target' value')
  | var {info : ExprInfo} {t t' : Ty} {i i' : Ident} : info.ty = some t → t.SameButSize t' → i.Rebound copies i' →
    Rechecked copies (.var info i) (.var (info.typed t') i')
  | arrayAccess {info : ExprInfo} {t : Ty} {i i' : Ident} {index index' : Expr} : info.ty = some t →
    i.Rebound copies i' → Rechecked copies index index' →
    Rechecked copies (.arrayAccess info i index) (.arrayAccess info i' index')
  | call {info : ExprInfo} {t : Ty} {i i' : Ident} {args args' : List Expr} : info.ty = some t →
    i.Rebound copies i' → List.Forall₂ (Rechecked copies) args args' →
    Rechecked copies (.call info i args) (.call info i' args')
  | initList {info : ExprInfo} {t : Ty} {elements elements' : List Expr} : info.ty = some t →
    List.Forall₂ (Rechecked copies) elements elements' →
    Rechecked copies (.initList info elements) (.initList info elements')
  | literal {info : ExprInfo} {t : Ty} {value : Literal} : info.ty = some t →
    Rechecked copies (.literal info value) (.literal info value)
  | intToFloat {info : ExprInfo} {t : Ty} {operand operand' : Expr} : info.ty = some t →
    Rechecked copies operand operand' → Rechecked copies (.intToFloat info operand) (.intToFloat info operand')

/-- A variable behind one more check. -/
inductive VarDecl.Rechecked (copies : List (Prototype × Prototype)) (d : VarDecl) : VarDecl → Prop
  | intro {init' : Option Expr} : Option.Rel (Expr.Rechecked copies) d.init init' →
    Rechecked copies d { d with init := init' }

/-- A statement behind one more check. -/
inductive Stmt.Rechecked (copies : List (Prototype × Prototype)) : Stmt → Stmt → Prop
  | compound {info : StmtInfo} {decls decls' : List VarDecl} {stmts stmts' : List Stmt} :
    List.Forall₂ (VarDecl.Rechecked copies) decls decls' → List.Forall₂ (Rechecked copies) stmts stmts' →
    Rechecked copies (.compound info decls stmts) (.compound info decls' stmts')
  | ifThen {info : StmtInfo} {cond cond' : Expr} {thenBranch then' : Stmt} : cond.Rechecked copies cond' →
    Rechecked copies thenBranch then' → Rechecked copies (.ifThen info cond thenBranch) (.ifThen info cond' then')
  | ifElse {info : StmtInfo} {cond cond' : Expr} {thenBranch then' elseBranch else' : Stmt} :
    cond.Rechecked copies cond' → Rechecked copies thenBranch then' → Rechecked copies elseBranch else' →
    Rechecked copies (.ifElse info cond thenBranch elseBranch) (.ifElse info cond' then' else')
  | whileStmt {info : StmtInfo} {cond cond' : Expr} {body body' : Stmt} : cond.Rechecked copies cond' →
    Rechecked copies body body' → Rechecked copies (.whileStmt info cond body) (.whileStmt info cond' body')
  | forStmt {info : StmtInfo} {init init' cond cond' update update' : Option Expr} {body body' : Stmt} :
    Option.Rel (Expr.Rechecked copies) init init' → Option.Rel (Expr.Rechecked copies) cond cond' →
    Option.Rel (Expr.Rechecked copies) update update' → Rechecked copies body body' →
    Rechecked copies (.forStmt info init cond update body) (.forStmt info init' cond' update' body')
  | breakStmt {info : StmtInfo} : Rechecked copies (.breakStmt info) (.breakStmt info)
  | continueStmt {info : StmtInfo} : Rechecked copies (.continueStmt info) (.continueStmt info)
  | returnStmt {info : StmtInfo} {value value' : Option Expr} : Option.Rel (Expr.Rechecked copies) value value' →
    Rechecked copies (.returnStmt info value) (.returnStmt info value')
  | exprStmt {info : StmtInfo} {expr expr' : Expr} : expr.Rechecked copies expr' →
    Rechecked copies (.exprStmt info expr) (.exprStmt info expr')
  | emptyStmt {info : StmtInfo} : Rechecked copies (.emptyStmt info) (.emptyStmt info)

/-- A declaration behind one more check. -/
inductive TopDecl.Rechecked (copies : List (Prototype × Prototype)) : TopDecl → TopDecl → Prop
  | func {f : Function} {decls' : List VarDecl} {stmts' : List Stmt} :
    List.Forall₂ (VarDecl.Rechecked copies) f.body.decls decls' →
    List.Forall₂ (Stmt.Rechecked copies) f.body.stmts stmts' →
    Rechecked copies (.func f) (.func { f with body := ⟨f.body.info, decls', stmts'⟩ })
  | var {d d' : VarDecl} : d.Rechecked copies d' → Rechecked copies (.var d) (.var d')

/-! ## Lists of trees -/

section Lists

variable {α β : Type} {R : α → α → Prop} {S : β → β → Prop}

/-- What is related member by member is so when each member becomes a list. -/
theorem forall₂_flatMap {xs ys : List α} {f : α → List β} (h : List.Forall₂ R xs ys)
    (hf : ∀ x ∈ xs, ∀ y, R x y → List.Forall₂ S (f x) (f y)) : List.Forall₂ S (xs.flatMap f) (ys.flatMap f) := by
  induction h with
  | nil => exact .nil
  | cons hxy _ ih =>
    rw [List.flatMap_cons, List.flatMap_cons]
    exact List.rel_append (hf _ List.mem_cons_self _ hxy) (ih fun x hx => hf x (List.mem_cons_of_mem _ hx))

theorem map_eq_of_forall₂ {xs ys : List α} {f : α → β} (h : List.Forall₂ R xs ys) (hf : ∀ x y, R x y → f y = f x) :
    ys.map f = xs.map f := by
  induction h with
  | nil => rfl
  | cons hxy _ ih => rw [List.map_cons, List.map_cons, hf _ _ hxy, ih]

theorem map_eq_of_rel {x y : Option α} {f : α → β} (h : Option.Rel R x y) (hf : ∀ x y, R x y → f y = f x) :
    y.map f = x.map f := by
  cases h with
  | none => rfl
  | some hxy => rw [Option.map_some, Option.map_some, hf _ _ hxy]

end Lists

/-! ## The nodes of trees -/

namespace Expr.Rechecked

variable {e e' : Expr} {parent : NodeId}

theorem id (h : e.Rechecked copies e') : e'.id = e.id := by cases h <;> rfl

theorem span (h : e.Rechecked copies e') : e'.span = e.span := by cases h <;> rfl

theorem isTrueLiteral (h : e.Rechecked copies e') : e'.isTrueLiteral = e.isTrueLiteral := by cases h <;> rfl

theorem isLvalue (h : e.Rechecked copies e') : e'.isLvalue = e.isLvalue := by cases h <;> rfl

/-- The root of an expression. -/
theorem node (h : e.Rechecked copies e') : (e.node parent).Rechecked copies (e'.node parent) := by
  have hids {es es' : List Expr} (hes : List.Forall₂ (Rechecked copies) es es') : es'.map Expr.id = es.map Expr.id :=
    map_eq_of_forall₂ hes fun _ _ => id
  have hkind : e.kind.Rebound copies e'.kind := by
    cases h with
    | binary _ hl hr => rw [kind, kind, hl.id, hr.id]; exact .same
    | unary _ ho => rw [kind, kind, ho.id]; exact .same
    | assign _ ht hv => rw [kind, kind, ht.id, hv.id]; exact .same
    | var _ _ hi => exact .var hi
    | arrayAccess _ hi hindex => rw [kind, kind, hindex.id]; exact .arrayAccess hi
    | call _ hi hargs => rw [kind, kind, hids hargs]; exact .call hi
    | initList _ hes => rw [kind, kind, hids hes]; exact .same
    | literal => exact .same
    | intToFloat _ ho => rw [kind, kind, ho.id]; exact .same
  refine ⟨hkind, h.span, rfl, ?_⟩
  cases h with
  | binary ht | unary ht => exact ⟨_, _, ht, rfl, rfl⟩
  | var ht hsame => exact ⟨_, _, ht, rfl, hsame⟩
  | assign ht | arrayAccess ht | call ht | initList ht | literal ht | intToFloat ht => exact ⟨_, _, ht, ht, .same⟩

theorem children (h : e.Rechecked copies e') : List.Forall₂ (Rechecked copies) e.children e'.children := by
  cases h with
  | binary _ hl hr => exact .cons hl (.cons hr .nil)
  | unary _ ho => exact .cons ho .nil
  | assign _ ht hv => exact .cons ht (.cons hv .nil)
  | arrayAccess _ _ hindex => exact .cons hindex .nil
  | call _ _ hargs => exact hargs
  | initList _ hes => exact hes
  | intToFloat _ ho => exact .cons ho .nil
  | var | literal => exact .nil

/-- An expression behind one more check has the same nodes, each behind the check. -/
theorem entries (h : e.Rechecked copies e') :
    List.Forall₂ (Entry.Rechecked copies) (e.entries parent) (e'.entries parent) := by
  induction e using induct_children generalizing e' parent with
  | h e ih =>
    rw [entries_eq, entries_eq, h.id]
    refine List.rel_append (forall₂_flatMap h.children fun c hc c' hcc => ih c hc hcc) ?_
    have hroot : Entry.Rechecked copies (e.entry parent) (e'.entry parent) := by
      rw [entry, entry, h.id]
      exact .expr h.node
    exact .cons hroot .nil

theorem entriesOption {o o' : Option Expr} (h : Option.Rel (Rechecked copies) o o') :
    List.Forall₂ (Entry.Rechecked copies) (Expr.entriesOption parent o) (Expr.entriesOption parent o') := by
  cases h with
  | none => exact .nil
  | some he => exact he.entries

theorem mapId {o o' : Option Expr} (h : Option.Rel (Rechecked copies) o o') : o'.map Expr.id = o.map Expr.id :=
  map_eq_of_rel h fun _ _ => id

end Expr.Rechecked

namespace VarDecl.Rechecked

variable {d d' : VarDecl} {parent : NodeId}

theorem id (h : d.Rechecked copies d') : d'.id = d.id := by cases h; rfl

theorem entries (h : d.Rechecked copies d') :
    List.Forall₂ (Entry.Rechecked copies) (d.entries parent) (d'.entries parent) := by
  cases h with
  | @intro init' hinit =>
    have hkind : ({ d with init := init' } : VarDecl).kind = d.kind := by
      unfold kind
      rw [Expr.Rechecked.mapId hinit]
    rw [VarDecl.entries, VarDecl.entries, hkind]
    exact List.rel_append (Expr.Rechecked.entriesOption hinit) (.cons .decl .nil)

end VarDecl.Rechecked

namespace Stmt.Rechecked

variable {s s' : Stmt} {parent : NodeId}

theorem id (h : s.Rechecked copies s') : s'.id = s.id := by cases h <;> rfl

theorem kind (h : s.Rechecked copies s') : s'.kind = s.kind := by
  cases h with
  | compound hdecls hstmts =>
    rw [Stmt.kind, Stmt.kind, map_eq_of_forall₂ hdecls fun _ _ => VarDecl.Rechecked.id,
      map_eq_of_forall₂ hstmts fun _ _ => id]
  | ifThen hcond hthen => rw [Stmt.kind, Stmt.kind, hcond.id, hthen.id]
  | ifElse hcond hthen helse => rw [Stmt.kind, Stmt.kind, hcond.id, hthen.id, helse.id]
  | whileStmt hcond hbody => rw [Stmt.kind, Stmt.kind, hcond.id, hbody.id]
  | forStmt hinit hcond hupdate hbody =>
    rw [Stmt.kind, Stmt.kind, Expr.Rechecked.mapId hinit, Expr.Rechecked.mapId hcond,
      Expr.Rechecked.mapId hupdate, hbody.id]
  | returnStmt hvalue => rw [Stmt.kind, Stmt.kind, Expr.Rechecked.mapId hvalue]
  | exprStmt hexpr => rw [Stmt.kind, Stmt.kind, hexpr.id]
  | breakStmt | continueStmt | emptyStmt => rfl

/-- A statement stays as it is, behind the nodes of its parts. -/
theorem behind (h : s.Rechecked copies s') {es es' : List Entry} (hes : List.Forall₂ (Entry.Rechecked copies) es es') :
    List.Forall₂ (Entry.Rechecked copies) (es ++ [s.entry parent]) (es' ++ [s'.entry parent]) := by
  have hspan : s'.span = s.span := by cases h <;> rfl
  have hroot : Entry.Rechecked copies (s.entry parent) (s'.entry parent) := by
    rw [Stmt.entry, Stmt.entry, h.id, h.kind, hspan]
    exact .stmt
  exact List.rel_append hes (.cons hroot .nil)

theorem entries (h : s.Rechecked copies s') :
    List.Forall₂ (Entry.Rechecked copies) (s.entries parent) (s'.entries parent) := by
  induction s using Stmt.induct generalizing s' parent with
  | compound info decls stmts ih =>
    cases h with
    | compound hdecls hstmts =>
      rw [Stmt.entries, Stmt.entries, entriesAll_eq, entriesAll_eq]
      exact behind (.compound hdecls hstmts) (List.rel_append (forall₂_flatMap hdecls fun _ _ _ hd => hd.entries)
        (forall₂_flatMap hstmts fun s hs _ hss => ih s hs hss))
  | ifThen info cond thenBranch ih =>
    cases h with
    | ifThen hcond hthen => exact behind (.ifThen hcond hthen) (List.rel_append hcond.entries (ih hthen))
  | ifElse info cond thenBranch elseBranch ihThen ihElse =>
    cases h with
    | ifElse hcond hthen helse =>
      exact behind (.ifElse hcond hthen helse)
        (List.rel_append (List.rel_append hcond.entries (ihThen hthen)) (ihElse helse))
  | whileStmt info cond body ih =>
    cases h with
    | whileStmt hcond hbody => exact behind (.whileStmt hcond hbody) (List.rel_append hcond.entries (ih hbody))
  | forStmt info init cond update body ih =>
    cases h with
    | forStmt hinit hcond hupdate hbody =>
      refine behind (.forStmt hinit hcond hupdate hbody) (List.rel_append ?_ (ih hbody))
      exact List.rel_append (List.rel_append (Expr.Rechecked.entriesOption hinit)
        (Expr.Rechecked.entriesOption hcond)) (Expr.Rechecked.entriesOption hupdate)
  | returnStmt info value =>
    cases h with
    | returnStmt hvalue => exact behind (.returnStmt hvalue) (Expr.Rechecked.entriesOption hvalue)
  | exprStmt info expr =>
    cases h with
    | exprStmt hexpr => exact behind (.exprStmt hexpr) hexpr.entries
  | breakStmt | continueStmt | emptyStmt =>
    cases h
    exact .cons .stmt .nil

/-! ## Ways through statements -/

theorem any_eq_of_forall₂ {R : Stmt → Stmt → Prop} {f : Stmt → Bool} {ss ss' : List Stmt} (h : List.Forall₂ R ss ss')
    (hf : ∀ s ∈ ss, ∀ s', R s s' → f s' = f s) : ss'.any f = ss.any f := by
  induction h with
  | nil => rfl
  | cons hss _ ih =>
    rw [List.any_cons, List.any_cons, hf _ List.mem_cons_self _ hss, ih fun s hs => hf s (List.mem_cons_of_mem _ hs)]

theorem breaksOut (h : s.Rechecked copies s') : s'.breaksOut = s.breaksOut := by
  induction s using Stmt.induct generalizing s' with
  | compound info decls stmts ih =>
    cases h with
    | compound _ hstmts =>
      rw [Stmt.breaksOut, Stmt.breaksOut, anyBreaksOut_eq, anyBreaksOut_eq]
      exact any_eq_of_forall₂ hstmts fun s hs _ hss => ih s hs hss
  | ifThen info cond thenBranch ih =>
    cases h with
    | ifThen _ hthen => rw [Stmt.breaksOut, Stmt.breaksOut, ih hthen]
  | ifElse info cond thenBranch elseBranch ihThen ihElse =>
    cases h with
    | ifElse _ hthen helse => rw [Stmt.breaksOut, Stmt.breaksOut, ihThen hthen, ihElse helse]
  | _ =>
    cases h
    rfl

theorem alwaysReturns (h : s.Rechecked copies s') : s'.alwaysReturns = s.alwaysReturns := by
  induction s using Stmt.induct generalizing s' with
  | compound info decls stmts ih =>
    cases h with
    | compound _ hstmts =>
      rw [Stmt.alwaysReturns, Stmt.alwaysReturns, anyAlwaysReturns_eq, anyAlwaysReturns_eq]
      exact any_eq_of_forall₂ hstmts fun s hs _ hss => ih s hs hss
  | ifElse info cond thenBranch elseBranch ihThen ihElse =>
    cases h with
    | ifElse _ hthen helse => rw [Stmt.alwaysReturns, Stmt.alwaysReturns, ihThen hthen, ihElse helse]
  | whileStmt info cond body ih =>
    cases h with
    | whileStmt hcond hbody => rw [Stmt.alwaysReturns, Stmt.alwaysReturns, hcond.isTrueLiteral, hbody.breaksOut]
  | forStmt info init cond update body ih =>
    cases h with
    | forStmt _ hcond _ hbody =>
      rw [Stmt.alwaysReturns, Stmt.alwaysReturns, hbody.breaksOut,
        map_eq_of_rel hcond fun _ _ => Expr.Rechecked.isTrueLiteral]
  | _ =>
    cases h
    rfl

end Stmt.Rechecked

/-- A declaration behind one more check has the same nodes, each behind the check. -/
theorem TopDecl.Rechecked.entries {d d' : TopDecl} (h : d.Rechecked copies d') :
    List.Forall₂ (Entry.Rechecked copies) d.entries d'.entries := by
  cases h with
  | @func f decls' stmts' hdecls hstmts =>
    have hbody : f.body.toStmt.Rechecked copies (Block.mk f.body.info decls' stmts').toStmt := .compound hdecls hstmts
    have hparams (ps : List Param) : List.Forall₂ (Entry.Rechecked copies) (ps.map (Param.entry (.decl f.id)))
        (ps.map (Param.entry (.decl f.id))) := by
      induction ps with
      | nil => exact .nil
      | cons p ps ih => exact .cons .decl ih
    exact List.rel_append (List.rel_append (hparams f.params) hbody.entries) (.cons .decl .nil)
  | var hd => exact hd.entries

/-! ## Reports -/

/-- What one more check reports of some nodes: operators among them, and something if there is one. -/
structure Reported (es : List Entry) (errors : List Error) : Prop where
  blamed : ∀ x ∈ errors, ∃ id n, Entry.expr id n ∈ es ∧ n.Blames x
  some : ∀ id n, Entry.expr id n ∈ es → n.kind.isOperator = true → errors ≠ []

namespace Reported

variable {es fs : List Entry} {errors errors' : List Error}

theorem nil : Reported [] [] := ⟨by simp, by simp⟩

theorem append (h : Reported es errors) (h' : Reported fs errors') : Reported (es ++ fs) (errors ++ errors') := by
  constructor
  · intro x hx
    rcases List.mem_append.1 hx with hx | hx
    · obtain ⟨id, n, hn, hblames⟩ := h.blamed x hx
      exact ⟨id, n, List.mem_append_left _ hn, hblames⟩
    · obtain ⟨id, n, hn, hblames⟩ := h'.blamed x hx
      exact ⟨id, n, List.mem_append_right _ hn, hblames⟩
  · intro id n hn hop hnil
    obtain ⟨rfl, rfl⟩ := List.append_eq_nil_iff.1 hnil
    rcases List.mem_append.1 hn with hn | hn
    · exact h.some id n hn hop rfl
    · exact h'.some id n hn hop rfl

/-- A node that is no operator adds nothing. -/
theorem behind (h : Reported es errors) {x : Entry} (hx : ∀ id n, x = .expr id n → n.kind.isOperator = false) :
    Reported (es ++ [x]) errors := by
  have hnode : Reported [x] [] := by
    refine ⟨by simp, fun id n hn hop => ?_⟩
    rw [hx id n (List.mem_singleton.1 hn).symm] at hop
    cases hop
  simpa using h.append hnode

/-- A statement is no operator. -/
theorem stmt (h : Reported es errors) {s : Stmt} {parent : NodeId} : Reported (es ++ [s.entry parent]) errors :=
  h.behind fun id n hn => by cases hn

end Reported

end VCLang
