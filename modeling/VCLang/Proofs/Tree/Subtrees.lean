/-
All statements, all expressions and all functions of a program, each listed once: what is in a tree stands before
the tree itself.
-/
import VCLang.Proofs.Arena.Placed
import VCLang.Proofs.Tree.Parts
namespace VCLang

/-! ## Expressions -/

namespace Expr

mutual

/-- An expression and all expressions in it, each behind those that it holds. -/
def subtrees : Expr → List Expr
  | binary info op left right => subtrees left ++ subtrees right ++ [binary info op left right]
  | unary info op operand => subtrees operand ++ [unary info op operand]
  | assign info target value => subtrees target ++ subtrees value ++ [assign info target value]
  | var info ident => [var info ident]
  | arrayAccess info ident index => subtrees index ++ [arrayAccess info ident index]
  | call info ident args => subtreesAll args ++ [call info ident args]
  | initList info elements => subtreesAll elements ++ [initList info elements]
  | literal info value => [literal info value]
  | intToFloat info operand => subtrees operand ++ [intToFloat info operand]

def subtreesAll : List Expr → List Expr
  | [] => []
  | e :: es => subtrees e ++ subtreesAll es

end

theorem subtreesAll_eq (es : List Expr) : subtreesAll es = es.flatMap subtrees := by
  induction es with
  | nil => rfl
  | cons e es ih => rw [subtreesAll, ih, List.flatMap_cons]

theorem subtrees_eq (e : Expr) : e.subtrees = e.children.flatMap subtrees ++ [e] := by
  cases e <;> simp [subtrees, children, subtreesAll_eq]

/-- An expression of a flat form is the root of a tree in the tree. -/
theorem exists_subtree {e : Expr} {parent : NodeId} {x : Entry} (hx : x ∈ e.entries parent) :
    ∃ c ∈ e.subtrees, ∃ parent', x = c.entry parent' := by
  induction e using induct_children generalizing parent with
  | h e ih =>
    rw [subtrees_eq]
    rw [entries_eq, List.mem_append, List.mem_singleton] at hx
    rcases hx with hx | rfl
    · obtain ⟨c, hc, hx⟩ := List.mem_flatMap.1 hx
      obtain ⟨d, hd, hparent⟩ := ih c hc hx
      exact ⟨d, List.mem_append_left _ (List.mem_flatMap.2 ⟨c, hc, hd⟩), hparent⟩
    · exact ⟨e, by simp, parent, rfl⟩

end Expr

/-- All expressions of a variable. -/
def VarDecl.subexprs (d : VarDecl) : List Expr := d.init.toList.flatMap Expr.subtrees

theorem VarDecl.exists_subexpr {d : VarDecl} {parent : NodeId} {id : ExprId} {n : ExprNode}
    (h : .expr id n ∈ d.entries parent) : ∃ e ∈ d.subexprs, ∃ parent', Entry.expr id n = e.entry parent' := by
  rw [entries, Expr.entriesOption_eq, List.mem_append] at h
  rcases h with h | h
  · obtain ⟨e, he, h⟩ := List.mem_flatMap.1 h
    obtain ⟨c, hc, hparent⟩ := Expr.exists_subtree h
    exact ⟨c, List.mem_flatMap.2 ⟨e, he, hc⟩, hparent⟩
  · simp at h

/-! ## Statements -/

namespace Stmt

/-- A statement and the statements in it. -/
theorem subtrees_eq (s : Stmt) : s.subtrees = s.stmts.flatMap subtrees ++ [s] := by
  have hall (ss : List Stmt) : subtreesAll ss = ss.flatMap subtrees := by
    induction ss with
    | nil => rfl
    | cons s ss ih => rw [subtreesAll, ih, List.flatMap_cons]
  cases s <;> simp [subtrees, stmts, hall]

/-- The expressions of a statement that are in no other statement. -/
def ownExprs (s : Stmt) : List Expr := s.vars.flatMap VarDecl.subexprs ++ s.exprs.flatMap Expr.subtrees

/-- All expressions of a statement. -/
def subexprs (s : Stmt) : List Expr := s.subtrees.flatMap ownExprs

theorem subexprs_eq (s : Stmt) : s.subexprs = s.stmts.flatMap subexprs ++ s.ownExprs := by
  rw [subexprs, subtrees_eq, List.flatMap_append, List.flatMap_assoc, List.flatMap_singleton]
  rfl

theorem exists_subexpr {s : Stmt} {parent : NodeId} {id : ExprId} {n : ExprNode} (h : .expr id n ∈ s.entries parent) :
    ∃ e ∈ s.subexprs, ∃ parent', Entry.expr id n = e.entry parent' := by
  induction s using induct_stmts generalizing parent with
  | h s ih =>
    rw [subexprs_eq, ownExprs]
    rw [entries_eq] at h
    simp only [List.mem_append, List.mem_flatMap, List.mem_singleton] at h ⊢
    rcases h with ((⟨d, hd, h⟩ | ⟨e, he, h⟩) | ⟨t, ht, h⟩) | h
    · obtain ⟨c, hc, hparent⟩ := VarDecl.exists_subexpr h
      exact ⟨c, .inr (.inl ⟨d, hd, hc⟩), hparent⟩
    · obtain ⟨c, hc, hparent⟩ := Expr.exists_subtree h
      exact ⟨c, .inr (.inr ⟨e, he, hc⟩), hparent⟩
    · obtain ⟨c, hc, hparent⟩ := ih t ht h
      exact ⟨c, .inl ⟨t, ht, hc⟩, hparent⟩
    · cases h

end Stmt

/-- The node of a part is among those of the statement. -/
theorem held_stmt {s : Stmt} {parent : NodeId} {b : Arena} (hb : b.Has (s.entries parent)) :
    (∀ d ∈ s.vars, b.Has (d.entries (.stmt s.id))) ∧ (∀ e ∈ s.exprs, b.Has (e.entries (.stmt s.id))) ∧
      ∀ t ∈ s.stmts, b.Has (t.entries (.stmt s.id)) := by
  rw [Stmt.entries_eq, Arena.has_append, Arena.has_append, Arena.has_append] at hb
  exact ⟨fun d hd => hb.1.1.1.of_mem hd, fun e he => hb.1.1.2.of_mem he, fun t ht => hb.1.2.of_mem ht⟩

/-- A flat form that has the nodes of a statement has those of each statement in it. -/
theorem has_subtree {a : Arena} {s t : Stmt} {parent : NodeId} (h : a.Has (t.entries parent)) (hs : s ∈ t.subtrees) :
    ∃ parent', a.Has (s.entries parent') := by
  induction t using Stmt.induct_stmts generalizing parent with
  | h t ih =>
    rw [t.subtrees_eq, List.mem_append, List.mem_singleton] at hs
    rcases hs with hs | rfl
    · obtain ⟨c, hc, hs⟩ := List.mem_flatMap.1 hs
      exact ih c hc ((held_stmt h).2.2 c hc) hs
    · exact ⟨parent, h⟩

/-! ## Programs -/

namespace TopDecl

/-- The function that a declaration is. -/
def func? : TopDecl → Option Function
  | func f => some f
  | var _ => none

/-- All expressions of a declaration. -/
def subexprs : TopDecl → List Expr
  | func f => f.body.toStmt.subexprs
  | var d => d.subexprs

theorem exists_subexpr {d : TopDecl} {id : ExprId} {n : ExprNode} (h : .expr id n ∈ d.entries) :
    ∃ e ∈ d.subexprs, ∃ parent', Entry.expr id n = e.entry parent' := by
  cases d with
  | func f =>
    simp only [entries, Function.entries, List.mem_append, List.mem_map, List.mem_singleton] at h
    rcases h with (⟨p, -, h⟩ | h) | h
    · cases h
    · exact Stmt.exists_subexpr h
    · cases h
  | var d => exact VarDecl.exists_subexpr h

end TopDecl

namespace Program

/-- All statements of a program, the bodies of its functions included. -/
def statements (p : Program) : List Stmt := p.decls.flatMap TopDecl.stmts

/-- All expressions of a program. -/
def subexprs (p : Program) : List Expr := p.decls.flatMap TopDecl.subexprs

/-- The functions of a program. -/
def functions (p : Program) : List Function := p.decls.filterMap TopDecl.func?

/-- The expressions of the flat form of a source tree are those of the tree. -/
theorem exists_subexpr {p : Program} (hplain : p.Plain) (hp : p.Complete) {id : ExprId} {n : ExprNode}
    (hn : p.arena.expr? id = some n) :
    ∃ e ∈ p.subexprs, e.id = id ∧ e.kind = n.kind := by
  have hmem := (hp.holds_iff (.expr id n)).1 hn
  rw [hplain.entries_eq] at hmem
  obtain ⟨d, hd, hmem⟩ := List.mem_flatMap.1 hmem
  obtain ⟨e, he, parent, heq⟩ := TopDecl.exists_subexpr hmem
  refine ⟨e, List.mem_flatMap.2 ⟨d, hd, he⟩, ?_⟩
  rw [Expr.entry, Entry.expr.injEq] at heq
  exact ⟨heq.1.symm, by rw [heq.2]; rfl⟩

theorem Complete.has_function {p : Program} (hp : p.Complete) {f : Function} (hf : .func f ∈ p.decls) :
    p.arena.Has f.entries :=
  Arena.Has.of_mem (fun x hx => hp.has x (List.mem_append_left _ hx)) hf

theorem Complete.has_statement {p : Program} (hp : p.Complete) {s : Stmt} (hs : s ∈ p.statements) :
    ∃ parent, p.arena.Has (s.entries parent) := by
  obtain ⟨d, hd, hs⟩ := List.mem_flatMap.1 hs
  cases d with
  | var d => cases hs
  | func f =>
    have hall := hp.has_function hd
    rw [Function.entries, Arena.has_append, Arena.has_append] at hall
    exact has_subtree hall.1.2 hs

end Program

end VCLang
