/-
What a check as a whole does to a flat form: it keeps all nodes and adds some. What was added can be erased
again, and this gives back the flat form from before the check.
-/
import VCLang.Library
import VCLang.Proofs.Arena.Decoration
namespace VCLang

/-! ## What a check keeps -/

namespace Arena

variable {a b : Arena}

/-- One flat form is another with what a check finds out about each node, with new expressions, and with the
library functions behind its declarations. -/
structure Frame (a b : Arena) : Prop where
  exprs : ∀ id n, a.expr? id = some n → ∃ n', b.expr? id = some n' ∧ ExprKept a b id n n'
  stmts : ∀ id n, a.stmt? id = some n → ∃ n', b.stmt? id = some n' ∧ StmtKept a b n n'
  decls : ∀ id n, a.decl? id = some n → ∃ n', b.decl? id = some n' ∧ DeclKept a b n n'
  added : ∀ id n, a.exprs.size ≤ id.index → b.expr? id = some n → Added a b (.expr id n)
  no_stmts : b.stmts.size = a.stmts.size
  library : ∀ id n, a.decls.size ≤ id.index → (b.decl? id = some n ↔
    .decl id n ∈ (Library.number a.decls.size Library.entries).flatMap Prototype.entries)
  program : b.program = a.program
  span : b.span = a.span

/-! ## What a check finds out -/

/-- The type of the operands of a tagged operator. -/
inductive TagFits (op : String) : OperandTag → Ty → Prop
  | number {tag : OperandTag} : TagFits op tag tag.type
  | boolean : op ∈ ["!", "==", "!=", "&&", "||"] → TagFits op .int .boolean

/-- An operator has one tag, which its operands fit, unless its type is `error`: then it is as it was. -/
def OperatorResolved (b : Arena) (op : Operator) (operands : List ExprId) (op' : Operator) (t : Ty) : Prop :=
  (t ≠ .error ∧ ∃ tag s, op' = op.tagged tag ∧ TagFits op.spelling tag s ∧ ∀ e ∈ operands, b.type? e = some s) ∨
    (t = .error ∧ op' = op)

/-- Whether an expression is a conversion. -/
def IsConversion (b : Arena) (id : ExprId) : Prop := ∃ operand, b.exprKind? id = some (.intToFloat operand)

/-- What is known of the expressions of a flat form behind a check, with the flat form from before it. -/
structure Resolved (a b : Arena) : Prop where
  typed : ∀ id n, b.expr? id = some n → ∃ t, n.ty = some t
  unary : ∀ id n op' operand, b.expr? id = some n → n.kind = .unary op' operand →
    ∃ op old, a.exprKind? id = some (.unary op old) ∧ b.OperatorResolved op [operand] op' n.type
  binary : ∀ id n op' left right, b.expr? id = some n → n.kind = .binary op' left right →
    ∃ op old old', a.exprKind? id = some (.binary op old old') ∧ b.OperatorResolved op [left, right] op' n.type
  conversion : ∀ id n operand, b.expr? id = some n → n.kind = .intToFloat operand →
    n.ty = some .float ∧ b.type? operand = some .int ∧ ¬ b.IsConversion operand ∧
      ∀ parent, n.parent = some (.expr parent) → ¬ b.IsConversion parent
  assign : ∀ id n target value, b.expr? id = some n → n.kind = .assign target value → n.type ≠ .error →
    b.type? target = some n.type ∧ (b.type? value = some n.type ∨ b.type? value = some .error)

theorem TagFits.of_unary {op : String} {tag : OperandTag} {s t : Ty} (h : TaggedUnary op tag s t) :
    t ≠ .error ∧ TagFits op tag s := by
  cases h with
  | not => exact ⟨by simp, .boolean (by simp)⟩
  | sign => exact ⟨by cases tag <;> simp [OperandTag.type], .number⟩

theorem TagFits.of_binary {op : String} {tag : OperandTag} {s t : Ty} (h : TaggedBinary op tag s t) :
    t ≠ .error ∧ TagFits op tag s := by
  cases h with
  | arithmetic => exact ⟨by cases tag <;> simp [OperandTag.type], .number⟩
  | relational => exact ⟨by simp, .number⟩
  | equality => exact ⟨by simp, .number⟩
  | equalityBoolean hop => exact ⟨by simp, .boolean (by rcases List.mem_pair.1 hop with rfl | rfl <;> simp)⟩
  | logical hop => exact ⟨by simp, .boolean (by rcases List.mem_pair.1 hop with rfl | rfl <;> simp)⟩

/-- An expression was there before, or is new. -/
theorem Frame.expr_cases (h : Frame a b) {id : ExprId} {n' : ExprNode} (hn' : b.expr? id = some n') :
    (∃ n, a.expr? id = some n ∧ ExprKept a b id n n') ∨ Added a b (.expr id n') := by
  by_cases hid : id.index < a.exprs.size
  · have hn : a.expr? id = some a.exprs[id.index] := Array.getElem?_eq_getElem hid
    obtain ⟨n'', hn'', hkept⟩ := h.exprs id _ hn
    cases hn'.symm.trans hn''
    exact .inl ⟨_, hn, hkept⟩
  · exact .inr (h.added id n' (Nat.not_lt.1 hid) hn')

/-- An expression that is none of those a check puts in was there before, and has been decorated with its type. -/
theorem Frame.expr_source (h : Frame a b) {id : ExprId} {n : ExprNode} (hn : b.expr? id = some n)
    (hconversion : ∀ operand, n.kind ≠ .intToFloat operand) (hcondition : n.kind ≠ .literal (.boolean "true")) :
    ∃ n₀, a.expr? id = some n₀ ∧ Decorates a b n₀.kind n.kind n.type := by
  rcases h.expr_cases hn with ⟨n₀, hn₀, hkept⟩ | hadded
  · obtain ⟨t, ht, hdecorates⟩ := hkept.kind
    refine ⟨n₀, hn₀, ?_⟩
    rwa [ExprNode.type, ht, Option.getD_some]
  · cases hadded with
    | conversion => exact absurd rfl (hconversion _)
    | condition => exact absurd rfl hcondition

/-- A conversion is new, and it is of an `int` that was there before. -/
theorem Frame.of_conversion (h : Frame a b) {id operand : ExprId} {n : ExprNode} (hn : b.expr? id = some n)
    (hkind : n.kind = .intToFloat operand) :
    a.exprs.size ≤ id.index ∧ operand.index < a.exprs.size ∧ n.ty = some .float ∧ b.type? operand = some .int := by
  rcases h.expr_cases hn with ⟨⟨_, _, _, _⟩, -, -, -, t, -, hdecorates⟩ | hadded
  · rw [hkind] at hdecorates
    cases hdecorates
  · cases hadded with
    | conversion hle hlt htype =>
      cases hkind
      exact ⟨hle, hlt, rfl, htype⟩
    | condition => cases hkind

/-- What was there before is no conversion. -/
theorem Frame.not_isConversion (h : Frame a b) {id : ExprId} (hid : id.index < a.exprs.size) : ¬ b.IsConversion id := by
  rintro ⟨operand, hkind⟩
  obtain ⟨n, hn, hop⟩ := Option.map_eq_some_iff.1 hkind
  exact Nat.not_lt.2 (h.of_conversion hn hop).1 hid

/-- What a conversion stands above is its operand. -/
theorem Linked.eq_operand {library : List DeclId} (hb : b.Linked library) {id parent operand : ExprId} {n m : ExprNode}
    (hn : b.expr? id = some n) (hparent : n.parent = some (.expr parent)) (hm : b.expr? parent = some m)
    (hkind : m.kind = .intToFloat operand) : id = operand := by
  have hpart : b.parentOf (.expr id) = some (.expr parent) := by rw [parentOf, hn]; exact hparent
  have hchild : NodeId.expr id ∈ b.childrenOf (.expr parent) := by
    rw [← List.count_pos_iff, hb.child_of_parent _ _ hpart]
    exact Nat.one_pos
  simpa [childrenOf, hm, hkind, ExprKind.children] using hchild

/-- What a check finds out about the expressions of a flat form whose links agree behind it. -/
theorem Frame.resolved {library : List DeclId} (h : Frame a b) (hb : b.Linked library) : Resolved a b where
  typed id n hn := by
    rcases h.expr_cases hn with ⟨_, -, -, -, t, ht, -⟩ | hadded
    · exact ⟨t, ht⟩
    · cases hadded <;> exact ⟨_, rfl⟩
  unary id n op' operand hn hkind := by
    obtain ⟨⟨kind, _, _, _⟩, hsource, hdecorates⟩ := h.expr_source hn (by simp [hkind]) (by simp [hkind])
    rw [hkind] at hdecorates
    generalize n.type = t at hdecorates ⊢
    cases hdecorates with
    | unary htagged hoperand =>
      obtain ⟨hne, hfits⟩ := TagFits.of_unary htagged
      exact ⟨_, _, by rw [exprKind?, hsource]; rfl, .inl ⟨hne, _, _, rfl, hfits, by simpa using hoperand⟩⟩
    | unaryError => exact ⟨_, _, by rw [exprKind?, hsource]; rfl, .inr ⟨rfl, rfl⟩⟩
  binary id n op' left right hn hkind := by
    obtain ⟨⟨kind, _, _, _⟩, hsource, hdecorates⟩ := h.expr_source hn (by simp [hkind]) (by simp [hkind])
    rw [hkind] at hdecorates
    generalize n.type = t at hdecorates ⊢
    cases hdecorates with
    | binary htagged _ _ hleft hright =>
      obtain ⟨hne, hfits⟩ := TagFits.of_binary htagged
      exact ⟨_, _, _, by rw [exprKind?, hsource]; rfl, .inl ⟨hne, _, _, rfl, hfits, by simp [hleft, hright]⟩⟩
    | binaryError => exact ⟨_, _, _, by rw [exprKind?, hsource]; rfl, .inr ⟨rfl, rfl⟩⟩
  conversion id n operand hn hkind := by
    obtain ⟨hle, hlt, hfloat, hint⟩ := h.of_conversion hn hkind
    refine ⟨hfloat, hint, h.not_isConversion hlt, ?_⟩
    -- a conversion that this one is part of would have to be of an expression from before the check
    rintro parent hparent ⟨inner, hinner⟩
    obtain ⟨m, hm, hmkind⟩ := Option.map_eq_some_iff.1 hinner
    obtain rfl := hb.eq_operand hn hparent hm hmkind
    exact Nat.not_lt.2 hle (h.of_conversion hm hmkind).2.1
  assign id n target value hn hkind hne := by
    obtain ⟨⟨kind, _, _, _⟩, -, hdecorates⟩ := h.expr_source hn (by simp [hkind]) (by simp [hkind])
    rw [hkind] at hdecorates
    generalize n.type = t at hdecorates hne ⊢
    cases hdecorates with
    | assign _ htarget hvalue => exact ⟨htarget, hvalue hne⟩
    | assignError => exact absurd rfl hne

end Arena

end VCLang
