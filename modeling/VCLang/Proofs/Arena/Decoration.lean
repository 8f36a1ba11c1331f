/-
What a check may do to a flat form. Every node stays where it is; an expression gets its type, an operator its
tag, a name its declaration, and new nodes are put in between: conversions, and the conditions that loops omit.
-/
import Mathlib.Data.List.Forall2
import VCLang.Proofs.Arena.Links
import VCLang.Proofs.Arena.WellTyped
namespace VCLang

open Static

namespace Arena

variable {a b : Arena}

/-! ## Expressions -/

/-- What stands in the place of an expression: the expression, or a new conversion of it. -/
inductive Slot (a b : Arena) (id : ExprId) : ExprId → Prop
  | same : Slot a b id id
  | converted {w : ExprId} {n : ExprNode} : b.expr? w = some n → n.kind = .intToFloat id → a.exprs.size ≤ w.index →
    Slot a b id w

/-- What an expression is part of: the same as before, or a new conversion of it that is part of that. -/
inductive ParentSlot (a b : Arena) (id : ExprId) (parent : Option NodeId) : Option NodeId → Prop
  | same : ParentSlot a b id parent parent
  | converted {w : ExprId} {n : ExprNode} : b.expr? w = some n → n.kind = .intToFloat id → n.parent = parent →
    a.exprs.size ≤ w.index → ParentSlot a b id parent (some (.expr w))

/-- The same occurrence of a name, whatever it is bound to. -/
def SameOccurrence (i i' : Ident) : Prop := i'.spelling = i.spelling ∧ i'.span = i.span

/-- What becomes of an expression of a kind, with the type that it gets. -/
inductive Decorates (a b : Arena) : ExprKind → ExprKind → Ty → Prop
  | literal {value : Literal} {t : Ty} : Decorates a b (.literal value) (.literal value) t
  | var {ident ident' : Ident} {t : Ty} : SameOccurrence ident ident' → Decorates a b (.var ident) (.var ident') t
  | arrayAccess {ident ident' : Ident} {index : ExprId} {t : Ty} : SameOccurrence ident ident' →
    Decorates a b (.arrayAccess ident index) (.arrayAccess ident' index) t
  | call {ident ident' : Ident} {args args' : List ExprId} {t : Ty} : SameOccurrence ident ident' →
    List.Forall₂ (Slot a b) args args' → Decorates a b (.call ident args) (.call ident' args') t
  | initList {elements elements' : List ExprId} {t : Ty} : List.Forall₂ (Slot a b) elements elements' →
    Decorates a b (.initList elements) (.initList elements') t
  | unary {op : Operator} {operand : ExprId} {tag : OperandTag} {s t : Ty} : TaggedUnary op.spelling tag s t →
    b.type? operand = some s → Decorates a b (.unary op operand) (.unary (op.tagged tag) operand) t
  | unaryError {op : Operator} {operand : ExprId} : Decorates a b (.unary op operand) (.unary op operand) .error
  | binary {op : Operator} {left left' right right' : ExprId} {tag : OperandTag} {s t : Ty} :
    TaggedBinary op.spelling tag s t → Slot a b left left' → Slot a b right right' → b.type? left' = some s →
    b.type? right' = some s → Decorates a b (.binary op left right) (.binary (op.tagged tag) left' right') t
  | binaryError {op : Operator} {left right : ExprId} :
    Decorates a b (.binary op left right) (.binary op left right) .error
  | assign {target value value' : ExprId} {t : Ty} : Slot a b value value' → b.type? target = some t →
    (t ≠ .error → b.type? value' = some t ∨ b.type? value' = some .error) →
    Decorates a b (.assign target value) (.assign target value') t
  | assignError {target value : ExprId} : Decorates a b (.assign target value) (.assign target value) .error

/-- What becomes of an expression. -/
structure ExprKept (a b : Arena) (id : ExprId) (n n' : ExprNode) : Prop where
  span : n'.span = n.span
  parent : ParentSlot a b id n.parent n'.parent
  kind : ∃ t, n'.ty = some t ∧ Decorates a b n.kind n'.kind t

/-! ## Statements -/

/-- A condition of a `for` loop: where it is omitted, a new `true` is put in. -/
inductive ConditionFilled (a b : Arena) : Option ExprId → Option ExprId → Prop
  | same {cond : Option ExprId} : ConditionFilled a b cond cond
  | filled {id : ExprId} {n : ExprNode} : b.expr? id = some n → n.kind = .literal (.boolean "true") →
    a.exprs.size ≤ id.index → ConditionFilled a b none (some id)

inductive StmtDecorates (a b : Arena) : StmtKind → StmtKind → Prop
  | same {k : StmtKind} : StmtDecorates a b k k
  | forStmt {init init' cond cond' update update' : Option ExprId} {body : StmtId} :
    Option.Rel (Slot a b) init init' → ConditionFilled a b cond cond' → Option.Rel (Slot a b) update update' →
    StmtDecorates a b (.forStmt init cond update body) (.forStmt init' cond' update' body)
  | returnStmt {value value' : Option ExprId} : Option.Rel (Slot a b) value value' →
    StmtDecorates a b (.returnStmt value) (.returnStmt value')

structure StmtKept (a b : Arena) (n n' : StmtNode) : Prop where
  span : n'.span = n.span
  parent : n'.parent = n.parent
  kind : StmtDecorates a b n.kind n'.kind

/-! ## Declarations -/

inductive DeclDecorates (a b : Arena) : DeclKind → DeclKind → Prop
  | func {params : List DeclId} {body : Option StmtId} {hasReturn hasReturn' : Bool} :
    DeclDecorates a b (.func params body hasReturn) (.func params body hasReturn')
  | globalVar {init init' : Option ExprId} : Option.Rel (Slot a b) init init' →
    DeclDecorates a b (.globalVar init) (.globalVar init')
  | localVar {init init' : Option ExprId} : Option.Rel (Slot a b) init init' →
    DeclDecorates a b (.localVar init) (.localVar init')
  | param : DeclDecorates a b .param .param

/-- The type of a declaration: that of an array gets the size that is not written from a list of initial
values. -/
inductive Sized (a : Arena) (init : Option ExprId) : Ty → Ty → Prop
  | same {t : Ty} : Sized a init t t
  | counted {element : Ty} {e : ExprId} {elements : List ExprId} : init = some e →
    a.exprKind? e = some (.initList elements) →
    Sized a init (.array element none) (.array element (some elements.length))

structure DeclKept (a b : Arena) (n n' : DeclNode) : Prop where
  ident : n'.ident = n.ident
  span : n'.span = n.span
  parent : n'.parent = n.parent
  kind : DeclDecorates a b n.kind n'.kind
  ty : Sized a n.kind.init? n.ty n'.ty

/-! ## Lists of nodes -/

/-- What becomes of a node. -/
inductive Kept (a b : Arena) : Entry → Entry → Prop
  | expr {id : ExprId} {n n' : ExprNode} : ExprKept a b id n n' → Kept a b (.expr id n) (.expr id n')
  | stmt {id : StmtId} {n n' : StmtNode} : StmtKept a b n n' → Kept a b (.stmt id n) (.stmt id n')
  | decl {id : DeclId} {n n' : DeclNode} : DeclKept a b n n' → Kept a b (.decl id n) (.decl id n')

/-- A node that is put in: the conversion of an `int` that was there before, or the condition of a loop. -/
inductive Added (a b : Arena) : Entry → Prop
  | conversion {id operand : ExprId} {span : Span} {parent : Option NodeId} : a.exprs.size ≤ id.index →
    operand.index < a.exprs.size → b.type? operand = some .int →
    Added a b (.expr id ⟨.intToFloat operand, span, parent, some .float⟩)
  | condition {id : ExprId} {span : Span} {parent : Option NodeId} : a.exprs.size ≤ id.index →
    Added a b (.expr id ⟨.literal (.boolean "true"), span, parent, some .boolean⟩)

/-- Of some nodes others are made, in order, and new ones are put between them. -/
inductive Decorated (a b : Arena) : List Entry → List Entry → Prop
  | nil : Decorated a b [] []
  | keep {x x' : Entry} {xs xs' : List Entry} : Kept a b x x' → Decorated a b xs xs' →
    Decorated a b (x :: xs) (x' :: xs')
  | add {x : Entry} {xs xs' : List Entry} : Added a b x → Decorated a b xs xs' → Decorated a b xs (x :: xs')

namespace Decorated

variable {xs xs' ys ys' : List Entry} {x x' : Entry}

theorem append (h : Decorated a b xs xs') (h' : Decorated a b ys ys') : Decorated a b (xs ++ ys) (xs' ++ ys') := by
  induction h with
  | nil => exact h'
  | keep hkept _ ih => exact .keep hkept ih
  | add hadded _ ih => exact .add hadded ih

theorem snoc (h : Decorated a b xs xs') (hkept : Kept a b x x') : Decorated a b (xs ++ [x]) (xs' ++ [x']) :=
  h.append (.keep hkept .nil)

theorem snoc_added (h : Decorated a b xs xs') (hadded : Added a b x) : Decorated a b xs (xs' ++ [x]) := by
  have happend := h.append (.add hadded .nil)
  rwa [List.append_nil] at happend

/-- Nothing is lost. -/
theorem exists_kept (h : Decorated a b xs xs') (hx : x ∈ xs) : ∃ x' ∈ xs', Kept a b x x' := by
  induction h with
  | nil => cases hx
  | @keep y y' _ _ hkept _ ih =>
    rcases List.mem_cons.1 hx with rfl | hx
    · exact ⟨y', by simp, hkept⟩
    · obtain ⟨x', hx', hkept⟩ := ih hx
      exact ⟨x', List.mem_cons_of_mem _ hx', hkept⟩
  | add _ _ ih =>
    obtain ⟨x', hx', hkept⟩ := ih hx
    exact ⟨x', List.mem_cons_of_mem _ hx', hkept⟩

/-- Every node was there before or is new. -/
theorem kept_or_added (h : Decorated a b xs xs') (hx : x' ∈ xs') : (∃ x ∈ xs, Kept a b x x') ∨ Added a b x' := by
  induction h with
  | nil => cases hx
  | @keep y y' _ _ hkept _ ih =>
    rcases List.mem_cons.1 hx with rfl | hx
    · exact .inl ⟨y, by simp, hkept⟩
    · rcases ih hx with ⟨x, hx, hkept⟩ | hadded
      · exact .inl ⟨x, List.mem_cons_of_mem _ hx, hkept⟩
      · exact .inr hadded
  | add hadded _ ih =>
    rcases List.mem_cons.1 hx with rfl | hx
    · exact .inr hadded
    · exact ih hx

end Decorated

end Arena

end VCLang
