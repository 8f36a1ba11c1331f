/-
Trees whose spans nest. The span of an expression encloses those of its name, its operator and the expressions under
it, in the order in which these stand in the text; so does that of a declaration those of its parts. The span of a
statement holds those of its parts, wherever they stand: the condition that a check fills in has the span of its loop.
-/
import VCLang.Proofs.Span.Row
import VCLang.Proofs.Tree.Parts
namespace VCLang

variable {text : List Char}

/-! ## Expressions -/

namespace Expr

/-- What stands in the span of an expression, from left to right. -/
def parts : Expr → List Span
  | binary _ op left right => [left.span, op.span, right.span]
  | unary _ op operand => [op.span, operand.span]
  | assign _ target value => [target.span, value.span]
  | var _ ident => [ident.span]
  | arrayAccess _ ident index => [ident.span, index.span]
  | call _ ident args => ident.span :: args.map span
  | initList _ elements => elements.map span
  | literal _ _ => []
  | intToFloat _ operand => [operand.span]

/-- The spans of an expression nest. -/
inductive Nested (text : List Char) : Expr → Prop
  | node {e : Expr} : e.span.Encloses text e.parts → (∀ c ∈ e.children, Nested text c) → Nested text e

variable {e : Expr}

theorem Nested.encloses (h : e.Nested text) : e.span.Encloses text e.parts := by
  cases h with
  | node h _ => exact h

theorem Nested.children (h : e.Nested text) : ∀ c ∈ e.children, c.Nested text := by
  cases h with
  | node _ h => exact h

theorem Nested.placed (h : e.Nested text) : e.span.PlacedIn text := h.encloses.holds.placed

theorem span_mem_parts {c : Expr} (hc : c ∈ e.children) : c.span ∈ e.parts := by
  cases e <;> simp only [Expr.children, parts, List.mem_cons, List.not_mem_nil, or_false] at hc ⊢ <;> grind

theorem ident_mem_parts {i : Ident} (hi : i ∈ e.kind.ident?) : i.span ∈ e.parts := by
  cases e <;> simp_all [kind, ExprKind.ident?, parts]

end Expr

/-! ## Variables -/

/-- The spans of a variable nest. -/
structure VarDecl.Nested (text : List Char) (d : VarDecl) : Prop where
  span : d.span.Encloses text (d.ident.span :: d.init.toList.map Expr.span)
  init : ∀ e ∈ d.init, e.Nested text

/-! ## Statements -/

namespace Stmt

/-- What stands in the span of a statement. -/
def parts (s : Stmt) : List Span := s.vars.map VarDecl.span ++ s.exprs.map Expr.span ++ s.stmts.map span

theorem parts_forStmt (info : StmtInfo) (init cond update : Option Expr) (body : Stmt) :
    (forStmt info init cond update body).parts = init.toList.map Expr.span ++ cond.toList.map Expr.span ++
      update.toList.map Expr.span ++ [body.span] := by
  simp [parts, vars, exprs, stmts]

/-- The spans of a statement nest. -/
inductive Nested (text : List Char) : Stmt → Prop
  | node {s : Stmt} : s.span.Holds text s.parts → (∀ d ∈ s.vars, d.Nested text) → (∀ e ∈ s.exprs, e.Nested text) →
    (∀ c ∈ s.stmts, Nested text c) → Nested text s

variable {s : Stmt}

theorem Nested.holds (h : s.Nested text) : s.span.Holds text s.parts := by
  cases h with
  | node h _ _ _ => exact h

theorem Nested.vars (h : s.Nested text) : ∀ d ∈ s.vars, d.Nested text := by
  cases h with
  | node _ h _ _ => exact h

theorem Nested.exprs (h : s.Nested text) : ∀ e ∈ s.exprs, e.Nested text := by
  cases h with
  | node _ _ h _ => exact h

theorem Nested.stmts (h : s.Nested text) : ∀ c ∈ s.stmts, c.Nested text := by
  cases h with
  | node _ _ _ h => exact h

end Stmt

/-! ## Functions and programs -/

/-- The spans of a function nest. -/
structure Function.Nested (text : List Char) (f : Function) : Prop where
  span : f.span.Encloses text (f.ident.span :: (f.params.map Param.span ++ [f.body.info.span]))
  params : ∀ p ∈ f.params, p.span.Encloses text [p.ident.span]
  body : f.body.toStmt.Nested text

def TopDecl.span : TopDecl → Span
  | func f => f.span
  | var d => d.span

/-- The spans of a declaration outside all functions nest. -/
inductive TopDecl.Nested (text : List Char) : TopDecl → Prop
  | func {f : Function} : f.Nested text → Nested text (.func f)
  | var {d : VarDecl} : d.Nested text → Nested text (.var d)

/-- The spans of a program nest, those of the predeclared functions apart, which stand nowhere in a text. -/
structure Program.Nested (text : List Char) (p : Program) : Prop where
  span : p.span.Encloses text (p.decls.map TopDecl.span)
  decls : ∀ d ∈ p.decls, d.Nested text

end VCLang
