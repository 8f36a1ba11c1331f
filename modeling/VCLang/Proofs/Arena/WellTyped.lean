/-
Well-typed flat forms. The rules look at a checked program node by node: each node is related to the nodes
that it names by number, to the declarations that its names are bound to, and, for the spelling of its
operator, to the node of the same number before the check. They say nothing of how a program is checked.
-/
import VCLang.Proofs.Typing.Rules
namespace VCLang

open Static

/-! ## Types and operators -/

/-- Two types are the same, or are arrays of the same elements. -/
inductive Ty.SameButSize : Ty → Ty → Prop
  | same {t : Ty} : SameButSize t t
  | size {t : Ty} {n m : Option Nat} : SameButSize (.array t n) (.array t m)

/-- A value of the second type stands for a parameter of the first: of the same type unless it is an array,
which is passed by its elements. -/
inductive PassedAs : Ty → Ty → Prop
  | scalar {t : Ty} : t.isArray = false → PassedAs t t
  | array {t s : Ty} {n m : Option Nat} : Stores t s → PassedAs (.array t n) (.array s m)

/-- A unary operator with a tag: the type of its operand, and of the result. -/
inductive TaggedUnary : String → OperandTag → Ty → Ty → Prop
  | not : TaggedUnary "!" .int .boolean .boolean
  | sign {op : String} {tag : OperandTag} : op ∈ ["+", "-"] → TaggedUnary op tag tag.type tag.type

/-- A binary operator with a tag: the one type of both its operands, and of the result. -/
inductive TaggedBinary : String → OperandTag → Ty → Ty → Prop
  | arithmetic {op : String} {tag : OperandTag} : op ∈ ["+", "-", "*", "/"] → TaggedBinary op tag tag.type tag.type
  | relational {op : String} {tag : OperandTag} : op ∈ ["<", "<=", ">", ">="] →
    TaggedBinary op tag tag.type .boolean
  | equality {op : String} {tag : OperandTag} : op ∈ ["==", "!="] → TaggedBinary op tag tag.type .boolean
  | equalityBoolean {op : String} : op ∈ ["==", "!="] → TaggedBinary op .int .boolean .boolean
  | logical {op : String} : op ∈ ["&&", "||"] → TaggedBinary op .int .boolean .boolean

namespace Arena

/-! ## Nodes by number -/

/-- The type of an expression by its number. -/
def type? (a : Arena) (id : ExprId) : Option Ty := (a.expr? id).bind (·.ty)

def exprKind? (a : Arena) (id : ExprId) : Option ExprKind := (a.expr? id).map (·.kind)

def stmtKind? (a : Arena) (id : StmtId) : Option StmtKind := (a.stmt? id).map (·.kind)

/-- An occurrence of a name is bound to a declaration of that name. -/
def BoundTo (a : Arena) (ident : Ident) (n : DeclNode) : Prop :=
  ∃ d, ident.decl = some d ∧ a.decl? d = some n ∧ n.ident.spelling = ident.spelling

/-! ## Expressions -/

/-- An expression of a kind has a type, with a flat form `src` from before the check. -/
inductive Types (src a : Arena) (id : ExprId) : ExprKind → Ty → Prop
  | literal {value : Literal} {t : Ty} : LiteralType value t → Types src a id (.literal value) t
  | var {ident : Ident} {n : DeclNode} {t : Ty} : a.BoundTo ident n → n.kind.isFunction = false →
    t.SameButSize n.ty → Types src a id (.var ident) t
  | function {ident : Ident} {n : DeclNode} {s : StmtId} : a.BoundTo ident n → n.kind.isFunction = true →
    a.stmtKind? s = some (.exprStmt id) → Types src a id (.var ident) n.ty
  | arrayAccess {ident : Ident} {index : ExprId} {n : DeclNode} {t : Ty} {size : Option Nat} :
    a.BoundTo ident n → n.kind.isFunction = false → n.ty = .array t size → a.type? index = some .int →
    Types src a id (.arrayAccess ident index) t
  | call {ident : Ident} {args : List ExprId} {n : DeclNode} {params : List DeclId} {body : Option StmtId}
    {hasReturn : Bool} : ident.spelling ≠ "main" → a.BoundTo ident n → n.kind = .func params body hasReturn →
    List.Forall₂ (fun p arg => ∃ m t, a.decl? p = some m ∧ a.type? arg = some t ∧ PassedAs m.ty t) params args →
    Types src a id (.call ident args) n.ty
  | unary {op : Operator} {old operand : ExprId} {tag : OperandTag} {s t : Ty} :
    src.exprKind? id = some (.unary op old) → TaggedUnary op.spelling tag s t → a.type? operand = some s →
    Types src a id (.unary (op.tagged tag) operand) t
  | binary {op : Operator} {oldLeft oldRight left right : ExprId} {tag : OperandTag} {s t : Ty} :
    src.exprKind? id = some (.binary op oldLeft oldRight) → TaggedBinary op.spelling tag s t →
    a.type? left = some s → a.type? right = some s → Types src a id (.binary (op.tagged tag) left right) t
  | intToFloat {operand : ExprId} : a.type? operand = some .int → Types src a id (.intToFloat operand) .float
  | assign {target value : ExprId} {kind : ExprKind} {t : Ty} : a.exprKind? target = some kind →
    kind.isLvalue = true → a.type? target = some t → a.type? value = some t → t.isArray = false →
    Types src a id (.assign target value) t
  | initList {elements : List ExprId} {t : Ty} {n : Nat} : (∀ e ∈ elements, a.type? e = some t) →
    elements.length ≤ n → Types src a id (.initList elements) (.array t (some n))

/-! ## Statements -/

/-- A statement of a function is right, in or outside a loop. -/
inductive Right (a : Arena) (f : Site) : Bool → StmtId → Prop
  | compound {inLoop : Bool} {id : StmtId} {decls : List DeclId} {stmts : List StmtId} :
    a.stmtKind? id = some (.compound decls stmts) → (∀ s ∈ stmts, Right a f inLoop s) → Right a f inLoop id
  | ifThen {inLoop : Bool} {id thenBranch : StmtId} {cond : ExprId} :
    a.stmtKind? id = some (.ifStmt cond thenBranch none) → a.type? cond = some .boolean →
    Right a f inLoop thenBranch → Right a f inLoop id
  | ifElse {inLoop : Bool} {id thenBranch elseBranch : StmtId} {cond : ExprId} :
    a.stmtKind? id = some (.ifStmt cond thenBranch (some elseBranch)) → a.type? cond = some .boolean →
    Right a f inLoop thenBranch → Right a f inLoop elseBranch → Right a f inLoop id
  | whileStmt {inLoop : Bool} {id body : StmtId} {cond : ExprId} :
    a.stmtKind? id = some (.whileStmt cond body) → a.type? cond = some .boolean → Right a f true body →
    Right a f inLoop id
  | forStmt {inLoop : Bool} {id body : StmtId} {init update : Option ExprId} {cond : ExprId} :
    a.stmtKind? id = some (.forStmt init (some cond) update body) → a.type? cond = some .boolean →
    Right a f true body → Right a f inLoop id
  | breakStmt {id : StmtId} : a.stmtKind? id = some .breakStmt → Right a f true id
  | continueStmt {id : StmtId} : a.stmtKind? id = some .continueStmt → Right a f true id
  | returnMain {inLoop : Bool} {id : StmtId} {e : ExprId} : a.stmtKind? id = some (.returnStmt (some e)) →
    f.name = "main" → a.type? e = some .int → Right a f inLoop id
  | returnValue {inLoop : Bool} {id : StmtId} {e : ExprId} : a.stmtKind? id = some (.returnStmt (some e)) →
    f.name ≠ "main" → a.type? e = some f.result → f.result.isArray = false → Right a f inLoop id
  | returnNothing {inLoop : Bool} {id : StmtId} : a.stmtKind? id = some (.returnStmt none) →
    f.name ≠ "main" → f.result = .void → Right a f inLoop id
  | exprStmt {inLoop : Bool} {id : StmtId} {e : ExprId} {t : Ty} : a.stmtKind? id = some (.exprStmt e) →
    a.type? e = some t → Right a f inLoop id
  | emptyStmt {inLoop : Bool} {id : StmtId} : a.stmtKind? id = some .emptyStmt → Right a f inLoop id

/-! ## Declarations -/

/-- What a statement has to know of the function that a declaration is of. -/
def site (n : DeclNode) : Site := ⟨n.ident.spelling, n.ty⟩

/-- A variable of a type has a size if it is an array, and an initial value of its type if it has one. -/
inductive Initial (a : Arena) : Ty → Option ExprId → Prop
  | none {t : Ty} : t.isArray = false → Initial a t none
  | sized {t : Ty} {n : Nat} : Initial a (.array t (some n)) none
  | scalar {t : Ty} {e : ExprId} : t.isArray = false → a.type? e = some t → Initial a t (some e)
  | list {t : Ty} {n : Nat} {e : ExprId} {elements : List ExprId} : a.exprKind? e = some (.initList elements) →
    a.type? e = some (.array t (some n)) → Initial a (.array t (some n)) (some e)

/-- A declaration of a kind, of a name and a type, is right. -/
def RightDecl (a : Arena) (n : DeclNode) : Prop :=
  match n.kind with
  | .func params body hasReturn => (∀ p ∈ params, ∃ m, a.decl? p = some m ∧ m.kind = .param) ∧
    ∀ b ∈ body, a.Right (site n) false b ∧ (n.ty ≠ .void → hasReturn = true)
  | .globalVar init => NotVoid n.ty ∧ a.Initial n.ty init
  | .localVar init => NotVoid n.ty ∧ a.Initial n.ty init
  | .param => NotVoid n.ty

/-! ## Programs -/

/-- Every node of a flat form is right, and `main` is a function of the program that returns an `int`. -/
structure WellTyped (src a : Arena) : Prop where
  exprs : ∀ id n, a.expr? id = some n → ∃ t, n.ty = some t ∧ t.Proper ∧ Types src a id n.kind t
  stmts : ∀ id n, a.stmt? id = some n → ∃ d f inLoop, a.decl? d = some f ∧ f.kind.isFunction = true ∧
    a.Right (site f) inLoop id
  decls : ∀ id n, a.decl? id = some n → a.RightDecl n
  main : ∃ d ∈ a.program, ∃ n, a.decl? d = some n ∧ n.ident.spelling = "main" ∧ n.kind.isFunction = true ∧
    n.ty = .int

end Arena

end VCLang
