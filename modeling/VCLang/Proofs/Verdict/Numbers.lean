/-
Which faults of the catalog a construct can have by itself.
-/
import VCLang.Proofs.Diagnostic.Numbers
import VCLang.Proofs.Verdict.Step
namespace VCLang

open Typing

/-! ## Errors by their numbers -/

/-- The errors of a number in the catalog. -/
def numbered (n : Nat) (errors : List Error) : List Error := errors.filter (·.fault.number? = some n)

/-- The numbers of errors are among some. -/
def OfNumbers (ns : List Nat) (errors : List Error) : Prop := ∀ x ∈ errors, ∃ n ∈ ns, x.fault.number? = some n

variable {n : Nat} {ns ms : List Nat} {errors more : List Error} {f : Option Fault} {span : Span}

@[simp] theorem numbered_nil : numbered n [] = [] := rfl

@[simp] theorem numbered_append : numbered n (errors ++ more) = numbered n errors ++ numbered n more :=
  List.filter_append _ _

theorem numbered_flatMap {α : Type} (xs : List α) (f : α → List Error) :
    numbered n (xs.flatMap f) = xs.flatMap fun x => numbered n (f x) := List.filter_flatMap ..

@[simp] theorem ofNumbers_nil : OfNumbers ns [] := by simp [OfNumbers]

@[simp] theorem ofNumbers_append : OfNumbers ns (errors ++ more) ↔ OfNumbers ns errors ∧ OfNumbers ns more :=
  List.forall_mem_append

@[simp] theorem ofNumbers_singleton {x : Error} : OfNumbers ns [x] ↔ ∃ n ∈ ns, x.fault.number? = some n :=
  List.forall_mem_singleton

@[simp] theorem ofNumbers_reported :
    OfNumbers ns (reported f span) ↔ ∀ g ∈ f, ∃ n ∈ ns, g.number? = some n := by
  cases f <;> simp

theorem OfNumbers.mono (h : OfNumbers ns errors) (hsub : ns ⊆ ms) : OfNumbers ms errors := by
  intro x hx
  obtain ⟨n, hn, hnumber⟩ := h x hx
  exact ⟨n, hsub hn, hnumber⟩

/-- There is no error of another number. -/
theorem OfNumbers.numbered_eq_nil (h : OfNumbers ns errors) (hn : n ∉ ns) : numbered n errors = [] := by
  refine List.filter_eq_nil_iff.2 fun x hx => ?_
  obtain ⟨m, hm, hnumber⟩ := h x hx
  rw [hnumber, decide_eq_true_iff, Option.some.injEq]
  exact ne_of_mem_of_not_mem hm hn

/-- Errors of one number are all of that number. -/
theorem OfNumbers.numbered_eq (h : OfNumbers [n] errors) : numbered n errors = errors := by
  refine List.filter_eq_self.2 fun x hx => ?_
  obtain ⟨m, hm, hnumber⟩ := h x hx
  rw [hnumber, List.mem_singleton.1 hm, decide_eq_true rfl]

/-! ## Rules -/

theorem ofNumbers_some {f : Fault} (h : f.number? = some n) (hn : n ∈ ns) : OfNumbers ns [⟨f, span⟩] :=
  ofNumbers_singleton.2 ⟨n, hn, h⟩

theorem ofNumbers_store {fault : Fault} (h : fault.number? = some n) (target value : Ty) (span : Span) :
    OfNumbers [n] (reported (storeRuling fault target value).fault? span) := by
  unfold storeRuling
  split_ifs
  · exact ofNumbers_nil
  · exact ofNumbers_some h (by simp)

theorem ofNumbers_unary (op : String) (t : Ty) (span : Span) :
    OfNumbers [10] (reported (unaryRuling op t).fault? span) := by
  unfold unaryRuling
  split <;> (try split_ifs) <;> first
    | exact ofNumbers_nil
    | exact ofNumbers_some rfl (by simp)

theorem ofNumbers_binary (op : String) (s t : Ty) (left right : String) (span : Span) :
    OfNumbers [9, 11] (reported (binaryRuling op s t left right).fault? span) := by
  unfold binaryRuling
  split_ifs
  · exact ofNumbers_nil
  · exact ofNumbers_some (n := 11) rfl (by simp)
  · exact ofNumbers_some (n := 11) rfl (by simp)
  · exact ofNumbers_some (n := 9) rfl (by simp)
  · split
    · exact ofNumbers_nil
    · exact ofNumbers_some (n := 9) rfl (by simp)

theorem ofNumbers_assign (s t : Ty) (name : String) (span : Span) :
    OfNumbers [6, 7, 11] (reported (assignRuling s t name).fault? span) := by
  unfold assignRuling
  split_ifs
  · exact ofNumbers_some (n := 7) rfl (by simp)
  · exact ofNumbers_some (n := 11) rfl (by simp)
  · exact (ofNumbers_store (n := 6) rfl s t span).mono (by simp)

theorem ofNumbers_argument (params : List Ty) (i : Nat) (t : Ty) (span : Span) :
    OfNumbers [25, 27] (reported (argumentRulingAt params i t).fault? span) := by
  unfold argumentRulingAt argumentRuling
  split <;> split_ifs
  · exact ofNumbers_nil
  · exact ofNumbers_some (n := 27) rfl (by simp)
  · exact ofNumbers_some (n := 25) rfl (by simp)
  · exact ofNumbers_nil

theorem ofNumbers_void (name : String) (t : Ty) (span : Span) :
    OfNumbers [3, 4] (reported (voidFault? name t) span) := by
  unfold voidFault?
  split
  · exact ofNumbers_some (n := 3) rfl (by simp)
  · exact ofNumbers_some (n := 4) rfl (by simp)
  · exact ofNumbers_nil

theorem ofNumbers_subscript (t : Ty) (span : Span) : OfNumbers [17] (reported (subscriptFault? t) span) := by
  unfold subscriptFault?
  split_ifs
  · exact ofNumbers_nil
  · exact ofNumbers_some rfl (by simp)

theorem ofNumbers_condition {fault : Ty → Fault} (hfault : ∀ t, (fault t).number? = some n) (t : Ty) (span : Span) :
    OfNumbers [n] (reported (conditionFault? fault t) span) := by
  unfold conditionFault?
  split_ifs
  · exact ofNumbers_nil
  · exact ofNumbers_some (hfault t) (by simp)

theorem ofNumbers_mainReturn (t : Ty) (span : Span) : OfNumbers [1] (reported (mainReturnFault? t) span) := by
  unfold mainReturnFault?
  split_ifs
  · exact ofNumbers_nil
  · exact ofNumbers_some rfl (by simp)

theorem ofNumbers_missingReturn (options : Options) (ret : Ty) (hasReturn : Bool) (span : Span) :
    OfNumbers [31] (reported (missingReturn? options ret hasReturn) span) := by
  unfold missingReturn?
  split_ifs
  · exact ofNumbers_some rfl (by simp)
  · exact ofNumbers_nil

theorem ofNumbers_redeclaration (env : Env) (ident : Ident) : OfNumbers [2] (redeclaration env ident) := by
  unfold redeclaration
  split_ifs
  · exact ofNumbers_some rfl (by simp)
  · exact ofNumbers_nil

theorem ofNumbers_rowErrors {rule : Nat → Ty → Ruling Bool}
    (h : ∀ i t span, OfNumbers ns (reported (rule i t).fault? span)) (τ : ExprId → Ty) (i : Nat) (es : List Expr) :
    OfNumbers ns (rowErrors rule τ i es) := by
  induction es generalizing i with
  | nil => exact ofNumbers_nil
  | cons e es ih =>
    rw [rowErrors_cons, ofNumbers_append]
    exact ⟨h i _ _, ih (i + 1)⟩

/-! ## Constructs -/

variable {env : Env} {whole : Bool} {τ : ExprId → Ty}

theorem ofNumbers_argumentErrors (params : List Ty) (args : List Expr) (span : Span) (τ : ExprId → Ty) :
    OfNumbers [25, 26, 27] (argumentErrors params args span τ) := by
  rw [argumentErrors, ofNumbers_append]
  refine ⟨(ofNumbers_rowErrors (ofNumbers_argument params) τ 0 args).mono (by simp), ?_⟩
  split_ifs
  · exact ofNumbers_some (n := 26) rfl (by simp)
  · exact ofNumbers_nil

/-- An expression that is no call. -/
theorem ofNumbers_verdict {e : Expr} (he : ∀ info ident args, e ≠ .call info ident args) :
    OfNumbers [5, 6, 7, 9, 10, 11, 12, 17] (e.verdict env whole τ).errors := by
  cases e with
  | binary info op left right =>
    rw [Expr.verdict, Ruling.errors_verdict]
    exact (ofNumbers_binary _ _ _ _ _ _).mono (by simp)
  | unary info op operand =>
    rw [Expr.verdict, Ruling.errors_verdict]
    exact (ofNumbers_unary _ _ _).mono (by simp)
  | assign info target value =>
    rw [Expr.verdict]
    split_ifs
    · rw [Ruling.errors_verdict]
      exact (ofNumbers_assign _ _ _ _).mono (by simp)
    · exact ofNumbers_some (n := 7) rfl (by simp)
  | var info ident =>
    rw [Expr.verdict]
    split
    · exact ofNumbers_some (n := 5) rfl (by simp)
    · split
      · exact ofNumbers_nil
      · split_ifs
        · exact ofNumbers_nil
        · exact ofNumbers_some (n := 11) rfl (by simp)
  | arrayAccess info ident index =>
    rw [Expr.verdict]
    split
    · exact ofNumbers_some (n := 5) rfl (by simp)
    · split
      · exact ofNumbers_some (n := 12) rfl (by simp)
      · have hsubscript := ofNumbers_subscript (τ index.id) index.span
        split
        · exact ofNumbers_nil
        · rename_i f hf
          rw [hf] at hsubscript
          exact hsubscript.mono (by simp)
  | call info ident args => exact absurd rfl (he info ident args)
  | initList info elements => exact ofNumbers_nil
  | literal info value => exact ofNumbers_nil
  | intToFloat info operand => exact ofNumbers_nil

/-- A call. -/
theorem ofNumbers_call {info : ExprInfo} {ident : Ident} {args : List Expr} :
    OfNumbers [5, 19, 25, 26, 27, 29] ((Expr.call info ident args).verdict env whole τ).errors := by
  rw [Expr.verdict]
  split_ifs
  · exact ofNumbers_some (n := 29) rfl (by simp)
  · split
    · exact ofNumbers_some (n := 5) rfl (by simp)
    · split
      · exact ofNumbers_some (n := 19) rfl (by simp)
      · exact (ofNumbers_argumentErrors _ args _ τ).mono (by simp)

theorem ofNumbers_elementErrors (element : Ty) (size : Option Nat) (info : ExprInfo) (elements : List Expr)
    (τ : ExprId → Ty) : OfNumbers [13, 16] (elementErrors element size info elements τ) := by
  rw [elementErrors, ofNumbers_append]
  have hstore (t : Ty) (span : Span) :
      OfNumbers [13] (reported (storeRuling .wrongInitialiserElement element t).fault? span) :=
    ofNumbers_store rfl element t span
  refine ⟨ofNumbers_rowErrors (fun _ t span => (hstore t span).mono (by simp)) τ 0 elements, ?_⟩
  split_ifs
  · exact ofNumbers_some (n := 16) rfl (by simp)
  · exact ofNumbers_nil

/-- A variable. -/
theorem ofNumbers_var (d : VarDecl) (env : Env) (τ : ExprId → Ty) :
    OfNumbers [2, 3, 4, 6, 13, 14, 15, 16, 18] (d.ownErrors env τ) := by
  have hinit : OfNumbers [6, 13, 14, 15, 16, 18] (d.initErrors τ) := by
    unfold VarDecl.initErrors
    split
    · exact ofNumbers_some (n := 18) rfl (by simp)
    · exact ofNumbers_nil
    · exact (ofNumbers_elementErrors _ _ _ _ τ).mono (by simp)
    · exact ofNumbers_some (n := 15) rfl (by simp)
    · exact ofNumbers_some (n := 14) rfl (by simp)
    · exact (ofNumbers_store (n := 6) rfl _ _ _).mono (by simp)
  have hvoid := ofNumbers_void d.ident.spelling d.ty d.ident.span
  rw [VarDecl.ownErrors, ofNumbers_append]
  refine ⟨(ofNumbers_redeclaration env d.ident).mono (by simp), ?_⟩
  split
  · rename_i f hf
    rw [hf] at hvoid
    exact hvoid.mono (by simp)
  · exact hinit.mono (by simp)

theorem ofNumbers_returnErrors (function : Option Prototype) (span : Span) (value : Ty) :
    OfNumbers [1, 8] (returnErrors function span value) := by
  unfold returnErrors
  split
  · exact ofNumbers_nil
  · split_ifs
    · exact (ofNumbers_mainReturn _ _).mono (by simp)
    · exact (ofNumbers_store (n := 8) rfl _ _ _).mono (by simp)

theorem ofNumbers_unreachedErrors (options : Options) (ss : List Stmt) :
    OfNumbers [30] (unreachedErrors options ss) := by
  unfold unreachedErrors
  split_ifs
  · intro x hx
    obtain ⟨s, -, rfl⟩ := List.mem_map.1 hx
    exact ⟨30, by simp, rfl⟩
  · exact ofNumbers_nil

theorem ofNumbers_paramErrors (env : Env) (ps : List Param) : OfNumbers [2, 3, 4] (paramErrors env ps) := by
  induction ps generalizing env with
  | nil => exact ofNumbers_nil
  | cons p ps ih =>
    rw [paramErrors, ofNumbers_append, ofNumbers_append]
    exact ⟨⟨(ofNumbers_redeclaration env p.ident).mono (by simp), (ofNumbers_void _ _ _).mono (by simp)⟩, ih _⟩

/-- The numbers of the faults that a statement can have by itself. -/
def Stmt.numbers : Stmt → List Nat
  | compound _ _ _ => [30]
  | ifThen _ _ _ => [20]
  | ifElse _ _ _ _ => [20]
  | whileStmt _ _ _ => [22]
  | forStmt _ _ _ _ _ => [21]
  | breakStmt _ => [23]
  | continueStmt _ => [24]
  | returnStmt _ _ => [1, 8]
  | exprStmt _ _ => []
  | emptyStmt _ => []

/-- A statement. -/
theorem ofNumbers_stmt (options : Options) (k : Checker) (τ : ExprId → Ty) (s : Stmt) :
    OfNumbers s.numbers (s.ownErrors options k τ) := by
  cases s with
  | compound info decls stmts => exact ofNumbers_unreachedErrors options stmts
  | ifThen info cond thenBranch => exact ofNumbers_condition (fun _ => rfl) _ _
  | ifElse info cond thenBranch elseBranch => exact ofNumbers_condition (fun _ => rfl) _ _
  | whileStmt info cond body => exact ofNumbers_condition (fun _ => rfl) _ _
  | forStmt info init cond update body =>
    cases cond with
    | none => exact ofNumbers_nil
    | some cond => exact ofNumbers_condition (fun _ => rfl) _ _
  | breakStmt info =>
    rw [Stmt.ownErrors]
    split_ifs
    · exact ofNumbers_some rfl (by simp [Stmt.numbers])
    · exact ofNumbers_nil
  | continueStmt info =>
    rw [Stmt.ownErrors]
    split_ifs
    · exact ofNumbers_some rfl (by simp [Stmt.numbers])
    · exact ofNumbers_nil
  | returnStmt info value => cases value <;> exact ofNumbers_returnErrors _ _ _
  | exprStmt info expr => exact ofNumbers_nil
  | emptyStmt info => exact ofNumbers_nil

/-- What is wrong with `main` in a program as a whole. -/
theorem ofNumbers_main (env : Env) (span : Span) : OfNumbers [0, 1] (reported (mainFault? env) span) := by
  unfold mainFault?
  split
  · split_ifs
    · exact ofNumbers_nil
    · exact ofNumbers_some (n := 1) rfl (by simp)
  · exact ofNumbers_some (n := 0) rfl (by simp)

/-- A function. -/
theorem ofNumbers_function (options : Options) (env : Env) (f : Function) :
    OfNumbers [2, 3, 4, 30, 31] (f.ownErrors options env) := by
  rw [Function.ownErrors, ofNumbers_append, ofNumbers_append, ofNumbers_append]
  exact ⟨⟨⟨(ofNumbers_redeclaration env f.ident).mono (by simp), (ofNumbers_paramErrors _ _).mono (by simp)⟩,
    (ofNumbers_unreachedErrors options _).mono (by simp)⟩, (ofNumbers_missingReturn options _ _ _).mono (by simp)⟩

end VCLang
