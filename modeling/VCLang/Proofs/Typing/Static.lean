/-
The static semantics of the language as judgements over source trees. A scope says what the names of a
place stand for; an expression has at most one type, and what is wrong has none. The judgements say nothing
of how a program is checked, of errors, conversions or numbers of nodes.
-/
import VCLang.Library
namespace VCLang.Static

/-- The scopes of a place, with what is known of each name. -/
abbrev Scope := Scopes Signature

/-! ## Types -/

/-- A value of the second type may be stored where the first is declared. -/
inductive Stores : Ty → Ty → Prop
  | same {t : Ty} : t.isArray = false → Stores t t
  | widened : Stores .float .int

/-- A value of the second type may be passed for a parameter of the first: arrays by their elements. -/
inductive Passes : Ty → Ty → Prop
  | scalar {t s : Ty} : Stores t s → Passes t s
  | array {t s : Ty} {n m : Option Nat} : Stores t s → Passes (.array t n) (.array s m)

/-- The type that two numbers are brought to. -/
inductive Common : Ty → Ty → Ty → Prop
  | int : Common .int .int .int
  | float : Common .float .float .float
  | left : Common .int .float .float
  | right : Common .float .int .float

/-- The table of binary operators: the types of the operands, and the type of the result. -/
inductive BinaryOp : String → Ty → Ty → Ty → Prop
  | arithmetic {op : String} {a b t : Ty} : op ∈ ["+", "-", "*", "/"] → Common a b t → BinaryOp op a b t
  | relational {op : String} {a b t : Ty} : op ∈ ["<", "<=", ">", ">="] → Common a b t →
    BinaryOp op a b .boolean
  | equality {op : String} {a b t : Ty} : op ∈ ["==", "!="] → Common a b t → BinaryOp op a b .boolean
  | equalityBoolean {op : String} : op ∈ ["==", "!="] → BinaryOp op .boolean .boolean .boolean
  | logical {op : String} : op ∈ ["&&", "||"] → BinaryOp op .boolean .boolean .boolean

/-- The table of unary operators. -/
inductive UnaryOp : String → Ty → Ty → Prop
  | not : UnaryOp "!" .boolean .boolean
  | sign {op : String} {t : Ty} : op ∈ ["+", "-"] → t ∈ [.int, .float] → UnaryOp op t t

/-- The type of a literal. -/
inductive LiteralType : Literal → Ty → Prop
  | int {s : String} : LiteralType (.int s) .int
  | float {s : String} : LiteralType (.float s) .float
  | boolean {s : String} : LiteralType (.boolean s) .boolean
  | string {s : String} : LiteralType (.string s) .string

/-! ## Expressions -/

mutual

/-- An expression has a type in a scope. -/
inductive HasType (Γ : Scope) : Expr → Ty → Prop
  | literal {info : ExprInfo} {value : Literal} {t : Ty} : LiteralType value t →
    HasType Γ (.literal info value) t
  | var {info : ExprInfo} {ident : Ident} {t : Ty} : Γ.retrieve ident.spelling = some (.var t) →
    HasType Γ (.var info ident) t
  | arrayAccess {info : ExprInfo} {ident : Ident} {index : Expr} {element : Ty} {size : Option Nat} :
    Γ.retrieve ident.spelling = some (.var (.array element size)) → HasType Γ index .int →
    HasType Γ (.arrayAccess info ident index) element
  | call {info : ExprInfo} {ident : Ident} {args : List Expr} {ret : Ty} {params : List Ty} :
    ident.spelling ≠ "main" → Γ.retrieve ident.spelling = some (.func ret params) →
    HaveTypes Γ args params → HasType Γ (.call info ident args) ret
  | unary {info : ExprInfo} {op : Operator} {operand : Expr} {a t : Ty} : HasType Γ operand a →
    UnaryOp op.spelling a t → HasType Γ (.unary info op operand) t
  | binary {info : ExprInfo} {op : Operator} {left right : Expr} {a b t : Ty} : HasType Γ left a →
    HasType Γ right b → BinaryOp op.spelling a b t → HasType Γ (.binary info op left right) t
  | assign {info : ExprInfo} {target value : Expr} {t s : Ty} : target.isLvalue = true →
    HasType Γ target t → HasType Γ value s → Stores t s → HasType Γ (.assign info target value) t

/-- Arguments may be passed for parameters of some types. -/
inductive HaveTypes (Γ : Scope) : List Expr → List Ty → Prop
  | nil : HaveTypes Γ [] []
  | cons {arg : Expr} {args : List Expr} {param t : Ty} {params : List Ty} : HasType Γ arg t →
    Passes param t → HaveTypes Γ args params → HaveTypes Γ (arg :: args) (param :: params)

end

/-- An expression may stand as a whole statement: it has a type, or it is the name of a function. -/
inductive Stands (Γ : Scope) : Expr → Prop
  | value {e : Expr} {t : Ty} : HasType Γ e t → Stands Γ e
  | function {info : ExprInfo} {ident : Ident} {ret : Ty} {params : List Ty} :
    Γ.retrieve ident.spelling = some (.func ret params) → Stands Γ (.var info ident)

/-! ## Variables -/

/-- A variable of a type may have an initial value; what follows knows the variable with the second type,
which has the size of an array. -/
inductive Initialised (Γ : Scope) : Ty → Option Expr → Ty → Prop
  | none {t : Ty} : t.isArray = false → Initialised Γ t none t
  | scalar {t s : Ty} {e : Expr} : t.isArray = false → HasType Γ e s → Stores t s → Initialised Γ t (some e) t
  | array {element : Ty} {n : Nat} : Initialised Γ (.array element (some n)) none (.array element (some n))
  | list {element : Ty} {size : Option Nat} {info : ExprInfo} {elements : List Expr} :
    (∀ e ∈ elements, ∃ s, HasType Γ e s ∧ Stores element s) → elements.length ≤ size.getD elements.length →
    Initialised Γ (.array element size) (some (.initList info elements))
      (.array element (some (size.getD elements.length)))

/-- A type that variables and parameters have. -/
def NotVoid (t : Ty) : Prop := t ≠ .void ∧ ∀ size, t ≠ .array .void size

/-- A variable is declared: the second scope is that of what follows. The variable is in the scope of its own
initial value. -/
inductive Declares : Scope → VarDecl → Scope → Prop
  | intro {Γ : Scope} {d : VarDecl} {t : Ty} : Γ.retrieveOneLevel d.ident.spelling = none → NotVoid d.ty →
    Initialised (Γ.insert d.ident.spelling (.var d.ty)) d.ty d.init t →
    Declares Γ d (Γ.insert d.ident.spelling (.var t))

/-- Variables are declared one after another. -/
inductive DeclaresAll : Scope → List VarDecl → Scope → Prop
  | nil {Γ : Scope} : DeclaresAll Γ [] Γ
  | cons {Γ Γ₁ Γ₂ : Scope} {d : VarDecl} {ds : List VarDecl} : Declares Γ d Γ₁ → DeclaresAll Γ₁ ds Γ₂ →
    DeclaresAll Γ (d :: ds) Γ₂

/-! ## Statements -/

/-- The function that a statement is in: its name and the type it returns. -/
structure Site where
  name : String
  result : Ty

/-- What may be returned. What `main` returns is an `int`, whatever its declaration says. -/
inductive Returned (f : Site) (Γ : Scope) : Option Expr → Prop
  | main {e : Expr} : f.name = "main" → HasType Γ e .int → Returned f Γ (some e)
  | value {e : Expr} {t : Ty} : f.name ≠ "main" → HasType Γ e t → Stores f.result t → Returned f Γ (some e)
  | nothing : f.name ≠ "main" → f.result = .void → Returned f Γ none

/-- No statement of a list stands right behind a `return`. -/
def AllReached (stmts : List Stmt) : Prop :=
  ∀ front s next back, stmts = front ++ s :: next :: back → s.isReturn = false

/-- A statement is right in a function, in a scope, and in or outside a loop. -/
inductive Right (f : Site) : Scope → Bool → Stmt → Prop
  | compound {Γ Γ' : Scope} {inLoop : Bool} {info : StmtInfo} {decls : List VarDecl} {stmts : List Stmt} :
    DeclaresAll Γ.openScope decls Γ' → (∀ s ∈ stmts, Right f Γ' inLoop s) → AllReached stmts →
    Right f Γ inLoop (.compound info decls stmts)
  | ifThen {Γ : Scope} {inLoop : Bool} {info : StmtInfo} {cond : Expr} {thenBranch : Stmt} :
    HasType Γ cond .boolean → Right f Γ inLoop thenBranch → Right f Γ inLoop (.ifThen info cond thenBranch)
  | ifElse {Γ : Scope} {inLoop : Bool} {info : StmtInfo} {cond : Expr} {thenBranch elseBranch : Stmt} :
    HasType Γ cond .boolean → Right f Γ inLoop thenBranch → Right f Γ inLoop elseBranch →
    Right f Γ inLoop (.ifElse info cond thenBranch elseBranch)
  | whileStmt {Γ : Scope} {inLoop : Bool} {info : StmtInfo} {cond : Expr} {body : Stmt} :
    HasType Γ cond .boolean → Right f Γ true body → Right f Γ inLoop (.whileStmt info cond body)
  | forStmt {Γ : Scope} {inLoop : Bool} {info : StmtInfo} {init cond update : Option Expr} {body : Stmt} :
    (∀ e ∈ init, ∃ t, HasType Γ e t) → (∀ e ∈ cond, HasType Γ e .boolean) →
    (∀ e ∈ update, ∃ t, HasType Γ e t) → Right f Γ true body →
    Right f Γ inLoop (.forStmt info init cond update body)
  | breakStmt {Γ : Scope} {info : StmtInfo} : Right f Γ true (.breakStmt info)
  | continueStmt {Γ : Scope} {info : StmtInfo} : Right f Γ true (.continueStmt info)
  | returnStmt {Γ : Scope} {inLoop : Bool} {info : StmtInfo} {value : Option Expr} : Returned f Γ value →
    Right f Γ inLoop (.returnStmt info value)
  | exprStmt {Γ : Scope} {inLoop : Bool} {info : StmtInfo} {expr : Expr} : Stands Γ expr →
    Right f Γ inLoop (.exprStmt info expr)
  | emptyStmt {Γ : Scope} {inLoop : Bool} {info : StmtInfo} : Right f Γ inLoop (.emptyStmt info)

/-- A `break` in a statement leaves the loop that the statement is the body of. -/
inductive Leaves : Stmt → Prop
  | breakStmt {info : StmtInfo} : Leaves (.breakStmt info)
  | compound {info : StmtInfo} {decls : List VarDecl} {stmts : List Stmt} {s : Stmt} : s ∈ stmts → Leaves s →
    Leaves (.compound info decls stmts)
  | ifThen {info : StmtInfo} {cond : Expr} {thenBranch : Stmt} : Leaves thenBranch →
    Leaves (.ifThen info cond thenBranch)
  | ifElseThen {info : StmtInfo} {cond : Expr} {thenBranch elseBranch : Stmt} : Leaves thenBranch →
    Leaves (.ifElse info cond thenBranch elseBranch)
  | ifElseElse {info : StmtInfo} {cond : Expr} {thenBranch elseBranch : Stmt} : Leaves elseBranch →
    Leaves (.ifElse info cond thenBranch elseBranch)

/-- Every path through a statement returns; an endless loop has no path through it. -/
inductive Returns : Stmt → Prop
  | returnStmt {info : StmtInfo} {value : Option Expr} : Returns (.returnStmt info value)
  | compound {info : StmtInfo} {decls : List VarDecl} {stmts : List Stmt} {s : Stmt} : s ∈ stmts → Returns s →
    Returns (.compound info decls stmts)
  | ifElse {info : StmtInfo} {cond : Expr} {thenBranch elseBranch : Stmt} : Returns thenBranch →
    Returns elseBranch → Returns (.ifElse info cond thenBranch elseBranch)
  | whileStmt {info : StmtInfo} {cond : Expr} {body : Stmt} : cond.isTrueLiteral = true → ¬ Leaves body →
    Returns (.whileStmt info cond body)
  | forStmt {info : StmtInfo} {init cond update : Option Expr} {body : Stmt} :
    (∀ e ∈ cond, e.isTrueLiteral = true) → ¬ Leaves body → Returns (.forStmt info init cond update body)

/-! ## Programs -/

/-- Parameters are declared one after another. -/
inductive DeclaresParams : Scope → List Param → Scope → Prop
  | nil {Γ : Scope} : DeclaresParams Γ [] Γ
  | cons {Γ Γ' : Scope} {p : Param} {ps : List Param} : Γ.retrieveOneLevel p.ident.spelling = none →
    NotVoid p.ty → DeclaresParams (Γ.insert p.ident.spelling (.var p.ty)) ps Γ' → DeclaresParams Γ (p :: ps) Γ'

/-- What is known of a function. -/
def signature (f : Prototype) : Signature := .func f.ty (f.params.map Param.ty)

/-- A declaration outside all functions: the second scope is that of what follows. A function is in the scope
of its own body, which shares its scope with the parameters. -/
inductive DeclaresTop : Scope → TopDecl → Scope → Prop
  | var {Γ Γ' : Scope} {d : VarDecl} : Declares Γ d Γ' → DeclaresTop Γ (.var d) Γ'
  | func {Γ Γ₁ Γ₂ : Scope} {f : Function} : Γ.retrieveOneLevel f.ident.spelling = none →
    DeclaresParams (Γ.insert f.ident.spelling (signature f.toPrototype)).openScope f.params Γ₁ →
    DeclaresAll Γ₁ f.body.decls Γ₂ → (∀ s ∈ f.body.stmts, Right ⟨f.ident.spelling, f.ty⟩ Γ₂ false s) →
    AllReached f.body.stmts → (f.ty ≠ .void → Returns f.body.toStmt) →
    DeclaresTop Γ (.func f) (Γ.insert f.ident.spelling (signature f.toPrototype))

/-- The declarations of a program one after another. -/
inductive DeclaresTops : Scope → List TopDecl → Scope → Prop
  | nil {Γ : Scope} : DeclaresTops Γ [] Γ
  | cons {Γ Γ₁ Γ₂ : Scope} {d : TopDecl} {ds : List TopDecl} : DeclaresTop Γ d Γ₁ → DeclaresTops Γ₁ ds Γ₂ →
    DeclaresTops Γ (d :: ds) Γ₂

/-- The outermost scope before the first declaration: the predeclared functions. -/
def predeclared : Scope :=
  Library.entries.foldl (fun Γ e => Γ.insert e.name (.func e.ret e.params)) .empty

/-- A program is right: so are its declarations, and `main` is a function that returns an `int`. -/
def Correct (p : Program) : Prop :=
  ∃ Γ, DeclaresTops predeclared p.decls Γ ∧ ∃ params, Γ.retrieve "main" = some (.func .int params)

end VCLang.Static
