/-
The numbers of the nodes in a tree. A tree is numbered by a growing flat form: the numbers of its nodes, in
the order in which they are listed, are those that were free. New nodes are fresh: they say nothing yet that
only a check can know.
-/
import Mathlib.Tactic.Common
import VCLang.Tree.Layout
namespace VCLang

/-! ## Numbers -/

/-- The numbers of the expressions among some nodes, in order. -/
def exprIds (es : List Entry) : List Nat := (es.filterMap Entry.expr?).map Prod.fst

def stmtIds (es : List Entry) : List Nat := (es.filterMap Entry.stmt?).map Prod.fst

def declIds (es : List Entry) : List Nat := (es.filterMap Entry.decl?).map Prod.fst

@[simp] theorem exprIds_append (es fs : List Entry) : exprIds (es ++ fs) = exprIds es ++ exprIds fs := by
  simp [exprIds]

@[simp] theorem stmtIds_append (es fs : List Entry) : stmtIds (es ++ fs) = stmtIds es ++ stmtIds fs := by
  simp [stmtIds]

@[simp] theorem declIds_append (es fs : List Entry) : declIds (es ++ fs) = declIds es ++ declIds fs := by
  simp [declIds]

theorem mem_exprIds {es : List Entry} {id : ExprId} {n : ExprNode} (h : .expr id n ∈ es) : id.index ∈ exprIds es :=
  List.mem_map.2 ⟨_, List.mem_filterMap.2 ⟨_, h, rfl⟩, rfl⟩

theorem mem_declIds {es : List Entry} {id : DeclId} {n : DeclNode} (h : .decl id n ∈ es) : id.index ∈ declIds es :=
  List.mem_map.2 ⟨_, List.mem_filterMap.2 ⟨_, h, rfl⟩, rfl⟩

theorem declIds_params (parent : NodeId) (ps : List Param) :
    declIds (ps.map (Param.entry parent)) = ps.map fun p => p.id.index := by
  induction ps with
  | nil => rfl
  | cons p ps ih =>
    change p.id.index :: declIds (ps.map (Param.entry parent)) = _
    rw [ih, List.map_cons]

/-! ## Fresh nodes -/

/-- The name that an expression uses. -/
def ExprKind.ident? : ExprKind → Option Ident
  | var ident => some ident
  | arrayAccess ident _ => some ident
  | call ident _ => some ident
  | _ => none

/-- Whether a function is known to end every path in a `return`. -/
def DeclKind.hasReturn : DeclKind → Bool
  | func _ _ hasReturn => hasReturn
  | _ => false

/-- What no check has seen: no name is bound, no type is known, and no function is known to return. -/
def Entry.Fresh : Entry → Prop
  | expr _ node => node.ty = none ∧ ∀ i ∈ node.kind.ident?, i.decl = none
  | stmt _ _ => True
  | decl _ node => node.ident.decl = none ∧ node.kind.hasReturn = false

/-! ## Numbering by a growing flat form -/

namespace Arena

/-- A node has the number that the next node of its kind gets. -/
def IsNext (a : Arena) : Entry → Prop
  | .expr id _ => id = ⟨a.exprs.size⟩
  | .stmt id _ => id = ⟨a.stmts.size⟩
  | .decl id _ => id = ⟨a.decls.size⟩

/-- Adds a node, whatever it says it is part of, and makes its parts its children. -/
def pushEntry (a : Arena) : Entry → Arena
  | .expr _ node => (a.pushExpr node.kind node.span).2
  | .stmt _ node => (a.pushStmt node.kind node.span).2
  | .decl _ node => (a.pushDecl node.kind node.ident node.ty node.span).2

end Arena

section Push

variable {a : Arena} {x : Entry}

theorem exprs_pushEntry (h : a.IsNext x) :
    List.range (a.pushEntry x).exprs.size = List.range a.exprs.size ++ exprIds [x] := by
  cases x with
  | expr id node =>
    cases h
    rw [Arena.pushEntry, Arena.pushExpr_size, List.range_succ]
    rfl
  | stmt id node => simp [Arena.pushEntry, Arena.pushStmt, (a.adopt_sizes _ _).1, exprIds, Entry.expr?]
  | decl id node => simp [Arena.pushEntry, Arena.pushDecl, (a.adopt_sizes _ _).1, exprIds, Entry.expr?]

theorem stmts_pushEntry (h : a.IsNext x) :
    List.range (a.pushEntry x).stmts.size = List.range a.stmts.size ++ stmtIds [x] := by
  cases x with
  | expr id node => simp [Arena.pushEntry, Arena.pushExpr, (a.adopt_sizes _ _).2.1, stmtIds, Entry.stmt?]
  | stmt id node =>
    cases h
    rw [Arena.pushEntry, Arena.pushStmt_size, List.range_succ]
    rfl
  | decl id node => simp [Arena.pushEntry, Arena.pushDecl, (a.adopt_sizes _ _).2.1, stmtIds, Entry.stmt?]

theorem decls_pushEntry (h : a.IsNext x) :
    List.range (a.pushEntry x).decls.size = List.range a.decls.size ++ declIds [x] := by
  cases x with
  | expr id node => simp [Arena.pushEntry, Arena.pushExpr, (a.adopt_sizes _ _).2.2, declIds, Entry.decl?]
  | stmt id node => simp [Arena.pushEntry, Arena.pushStmt, (a.adopt_sizes _ _).2.2, declIds, Entry.decl?]
  | decl id node =>
    cases h
    rw [Arena.pushEntry, Arena.pushDecl_size, List.range_succ]
    rfl

end Push

/-- Between two flat forms exactly some nodes were added, fresh ones with the next numbers in order. -/
inductive Laid : Arena → Arena → List Entry → Prop
  | nil (a : Arena) : Laid a a []
  | push {a b : Arena} {x : Entry} {es : List Entry} : a.IsNext x → x.Fresh → Laid (a.pushEntry x) b es →
    Laid a b (x :: es)

namespace Laid

variable {a b c : Arena} {es fs : List Entry}

theorem append (h : Laid a b es) (h' : Laid b c fs) : Laid a c (es ++ fs) := by
  induction h with
  | nil => exact h'
  | push hnext hfresh _ ih => exact .push hnext hfresh (ih h')

/-- What was added last was added to a flat form that the rest was added to. -/
theorem of_append (h : Laid a c (es ++ fs)) : ∃ b, Laid a b es ∧ Laid b c fs := by
  induction es generalizing a with
  | nil => exact ⟨a, .nil a, h⟩
  | cons x es ih =>
    cases h with
    | push hnext hfresh h =>
      obtain ⟨b, hes, hfs⟩ := ih h
      exact ⟨b, .push hnext hfresh hes, hfs⟩

theorem fresh (h : Laid a b es) : ∀ x ∈ es, x.Fresh := by
  induction h with
  | nil => simp
  | push _ hfresh _ ih => exact List.forall_mem_cons.2 ⟨hfresh, ih⟩

theorem exprs (h : Laid a b es) : List.range b.exprs.size = List.range a.exprs.size ++ exprIds es := by
  induction h with
  | nil => simp [exprIds]
  | @push a b x es hnext _ _ ih =>
    rw [ih, exprs_pushEntry hnext, List.append_assoc, ← exprIds_append, List.singleton_append]

theorem stmts (h : Laid a b es) : List.range b.stmts.size = List.range a.stmts.size ++ stmtIds es := by
  induction h with
  | nil => simp [stmtIds]
  | @push a b x es hnext _ _ ih =>
    rw [ih, stmts_pushEntry hnext, List.append_assoc, ← stmtIds_append, List.singleton_append]

theorem decls (h : Laid a b es) : List.range b.decls.size = List.range a.decls.size ++ declIds es := by
  induction h with
  | nil => simp [declIds]
  | @push a b x es hnext _ _ ih =>
    rw [ih, decls_pushEntry hnext, List.append_assoc, ← declIds_append, List.singleton_append]

/-- How many nodes there are of each kind once some were added. -/
theorem sizes (h : Laid a b es) : b.exprs.size = a.exprs.size + (exprIds es).length ∧
    b.stmts.size = a.stmts.size + (stmtIds es).length ∧ b.decls.size = a.decls.size + (declIds es).length := by
  have hlength {m n : Nat} {ids : List Nat} (h : List.range n = List.range m ++ ids) : n = m + ids.length := by
    simpa using congrArg List.length h
  exact ⟨hlength h.exprs, hlength h.stmts, hlength h.decls⟩

end Laid

theorem laid_pushExpr (a : Arena) {kind : ExprKind} (span : Span) (parent : NodeId)
    (hkind : ∀ i ∈ kind.ident?, i.decl = none) :
    Laid a (a.pushExpr kind span).2 [.expr ⟨a.exprs.size⟩ ⟨kind, span, some parent, none⟩] := by
  let x : Entry := .expr ⟨a.exprs.size⟩ ⟨kind, span, some parent, none⟩
  have hfresh : x.Fresh := ⟨rfl, hkind⟩
  exact .push rfl hfresh (.nil _)

theorem laid_pushStmt (a : Arena) (kind : StmtKind) (span : Span) (parent : NodeId) :
    Laid a (a.pushStmt kind span).2 [.stmt ⟨a.stmts.size⟩ ⟨kind, span, some parent⟩] := by
  let x : Entry := .stmt ⟨a.stmts.size⟩ ⟨kind, span, some parent⟩
  have hfresh : x.Fresh := trivial
  exact .push rfl hfresh (.nil _)

theorem laid_pushDecl (a : Arena) {kind : DeclKind} {ident : Ident} (ty : Ty) (span : Span) (parent : NodeId)
    (hkind : kind.hasReturn = false) (hident : ident.decl = none) :
    Laid a (a.pushDecl kind ident ty span).2 [.decl ⟨a.decls.size⟩ ⟨kind, ident, ty, span, some parent⟩] := by
  let x : Entry := .decl ⟨a.decls.size⟩ ⟨kind, ident, ty, span, some parent⟩
  have hfresh : x.Fresh := ⟨hident, hkind⟩
  exact .push rfl hfresh (.nil _)

/-- The nodes of a program are numbered in the order in which they are listed. -/
structure Program.Numbered (p : Program) : Prop where
  exprs : exprIds p.entries = List.range p.exprCount
  stmts : stmtIds p.entries = List.range (stmtIds p.entries).length
  decls : declIds p.entries = List.range p.declCount

/-! ## Numbering by a check -/

/-- Numbers have become others: those from `n` up to `n'` were added. -/
def Grown (ids ids' : List Nat) (n n' : Nat) : Prop := (ids' ++ List.range n).Perm (ids ++ List.range n')

theorem Grown.count {ids ids' : List Nat} {n n' : Nat} (h : Grown ids ids' n n') (i : Nat) :
    ids'.count i + (List.range n).count i = ids.count i + (List.range n').count i := by
  simpa using List.perm_iff_count.1 h i

theorem Grown.append {ids ids' more more' : List Nat} {n n₁ n' : Nat} (h : Grown ids ids' n n₁)
    (h' : Grown more more' n₁ n') : Grown (ids ++ more) (ids' ++ more') n n' := by
  refine List.perm_iff_count.2 fun i => ?_
  have hi := h.count i
  have hi' := h'.count i
  simp only [List.count_append]
  omega

theorem Grown.trans {ids ids' ids'' : List Nat} {n n₁ n' : Nat} (h : Grown ids ids' n n₁)
    (h' : Grown ids' ids'' n₁ n') : Grown ids ids'' n n' := by
  refine List.perm_iff_count.2 fun i => ?_
  have hi := h.count i
  have hi' := h'.count i
  simp only [List.count_append]
  omega

/-- Nodes have become others: some expressions were added, with the numbers from `n` up to `n'`. -/
structure Renumbered (es es' : List Entry) (n n' : Nat) : Prop where
  le : n ≤ n'
  exprs : Grown (exprIds es) (exprIds es') n n'
  stmts : stmtIds es' = stmtIds es
  decls : declIds es' = declIds es

/-- Nodes that keep their numbers. -/
theorem Renumbered.of_eq {es es' : List Entry} (n : Nat) (hexprs : exprIds es' = exprIds es)
    (hstmts : stmtIds es' = stmtIds es) (hdecls : declIds es' = declIds es) : Renumbered es es' n n :=
  ⟨Nat.le_refl n, by rw [Grown, hexprs], hstmts, hdecls⟩

theorem Renumbered.append {es es' fs fs' : List Entry} {n n₁ n' : Nat} (h : Renumbered es es' n n₁)
    (h' : Renumbered fs fs' n₁ n') : Renumbered (es ++ fs) (es' ++ fs') n n' := by
  constructor
  · exact Nat.le_trans h.le h'.le
  · simpa using h.exprs.append h'.exprs
  · rw [stmtIds_append, stmtIds_append, h.stmts, h'.stmts]
  · rw [declIds_append, declIds_append, h.decls, h'.decls]

theorem Renumbered.trans {es es' es'' : List Entry} {n n₁ n' : Nat} (h : Renumbered es es' n n₁)
    (h' : Renumbered es' es'' n₁ n') : Renumbered es es'' n n' :=
  ⟨Nat.le_trans h.le h'.le, h.exprs.trans h'.exprs, h'.stmts.trans h.stmts, h'.decls.trans h.decls⟩

/-- A node that is added gets the next number. -/
theorem Renumbered.add (es : List Entry) (n : Nat) (node : ExprNode) :
    Renumbered es (es ++ [.expr ⟨n⟩ node]) n (n + 1) := by
  constructor
  · exact Nat.le_succ n
  · refine List.perm_iff_count.2 fun i => ?_
    rw [exprIds_append, List.range_succ]
    simp only [List.count_append]
    change _ + [n].count i + _ = _
    omega
  · simp [stmtIds, Entry.stmt?]
  · simp [declIds, Entry.decl?]

/-! ## Lists of trees -/

theorem Expr.entriesAll_eq (parent : NodeId) (es : List Expr) :
    Expr.entriesAll parent es = es.flatMap (Expr.entries parent) := by
  induction es with
  | nil => rfl
  | cons e es ih => rw [Expr.entriesAll, ih, List.flatMap_cons]

/-- The nodes of an expression are those of its parts, and the root. -/
theorem Expr.entries_eq (e : Expr) (parent : NodeId) :
    e.entries parent = e.children.flatMap (entries (.expr e.id)) ++ [e.entry parent] := by
  cases e <;> simp [entries, entriesAll_eq, children, id, info]

theorem Stmt.entriesAll_eq (parent : NodeId) (ss : List Stmt) :
    Stmt.entriesAll parent ss = ss.flatMap (Stmt.entries parent) := by
  induction ss with
  | nil => rfl
  | cons s ss ih => rw [Stmt.entriesAll, ih, List.flatMap_cons]

end VCLang
