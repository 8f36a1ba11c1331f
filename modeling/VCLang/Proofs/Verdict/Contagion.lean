/-
Mistakes are reported once. A part that was reported where it went wrong is of type `error`, and a construct adds
nothing on account of it; nor would it report less if the part were of another type.
-/
import VCLang.Proofs.Verdict.Program
namespace VCLang

open Typing

variable {options : Options} {env : Env} {whole : Bool} {k : Checker} {σ τ : ExprId → Ty} {n : Nat}

/-! ## Fewer errors -/

/-- Types that differ from others only where they are `error`. -/
def Milder (σ τ : ExprId → Ty) : Prop := ∀ x, σ x = .error ∨ σ x = τ x

/-- Where an expression is of type `error`, it could be of any other type. -/
theorem milder_update {x : ExprId} (h : τ x = .error) (t : Ty) : Milder τ (Function.update τ x t) := by
  intro y
  by_cases hy : y = x
  · exact .inl (hy ▸ h)
  · exact .inr (Function.update_of_ne hy t τ).symm

/-- A rule that says nothing of the type `error` reports no more of it than of another type. -/
theorem length_reported_le {f : Ty → Option Fault} {s t : Ty} (h : s = .error ∨ s = t) (hf : f .error = none)
    (span : Span) : (reported (f s) span).length ≤ (reported (f t) span).length := by
  rcases h with rfl | rfl
  · rw [hf]
    exact Nat.zero_le _
  · exact Nat.le_refl _

/-- One by one, no expression in a row is reported on account of its type `error`. -/
theorem length_rowErrors_le {rule : Nat → Ty → Ruling Bool}
    (hrule : ∀ i t span, (reported (rule i .error).fault? span).length ≤ (reported (rule i t).fault? span).length)
    (h : Milder σ τ) (i : Nat) (es : List Expr) :
    (rowErrors rule σ i es).length ≤ (rowErrors rule τ i es).length := by
  induction es generalizing i with
  | nil => exact Nat.le_refl _
  | cons e es ih =>
    rw [rowErrors_cons, rowErrors_cons, List.length_append, List.length_append]
    refine Nat.add_le_add ?_ (ih (i + 1))
    rcases h e.id with he | he
    · rw [he]
      exact hrule i _ _
    · exact Nat.le_of_eq (by rw [he])

theorem length_arguments_le (params : List Ty) (i : Nat) (t : Ty) (span : Span) :
    (reported (argumentRulingAt params i .error).fault? span).length ≤
      (reported (argumentRulingAt params i t).fault? span).length := by
  unfold argumentRulingAt
  split
  · rw [argumentRuling, if_pos (argumentFits_error _)]
    exact Nat.zero_le _
  · exact Nat.le_refl _

theorem length_binary_le {op : String} {s s' t t' : Ty} {left right : String} (hs : s = .error ∨ s = s')
    (ht : t = .error ∨ t = t') (span : Span) :
    (reported (binaryRuling op s t left right).fault? span).length ≤
      (reported (binaryRuling op s' t' left right).fault? span).length := by
  rcases hs with rfl | rfl
  · exact Nat.zero_le _
  rcases ht with rfl | rfl
  · rw [binaryRuling, if_pos (by simp [Ty.isError])]
    exact Nat.zero_le _
  · exact Nat.le_refl _

/-- An array on either side of an assignment is reported whatever stands on the other side. -/
theorem length_assign_le {s s' t t' : Ty} {name : String} (hs : s = .error ∨ s = s') (ht : t = .error ∨ t = t')
    (span : Span) :
    (reported (assignRuling s t name).fault? span).length ≤
      (reported (assignRuling s' t' name).fault? span).length := by
  rcases hs with rfl | rfl
  · by_cases harray : t.isArray = true
    · obtain rfl : t = t' := ht.resolve_left fun h => by rw [h] at harray; cases harray
      have hvalue : assignRuling .error t name = .reject (.notScalar name) := by
        rw [assignRuling, if_neg (by simp [Ty.isArray]), if_pos harray]
      rw [hvalue, assignRuling, if_pos harray]
      split_ifs <;> exact Nat.le_refl 1
    · have hvalue : assignRuling .error t name = storeRuling .incompatibleAssignment .error t := by
        rw [assignRuling, if_neg (by simp [Ty.isArray]), if_neg harray]
      rw [hvalue, storeRuling, if_pos (Ty.assignable_error_left t)]
      exact Nat.zero_le _
  rcases ht with rfl | rfl
  · by_cases harray : s.isArray = true
    · have htarget (t : Ty) : assignRuling s t name = .reject .invalidLvalue := by
        rw [assignRuling, if_pos harray]
      exact Nat.le_of_eq (by rw [htarget, htarget])
    · rw [assignRuling, if_neg harray, if_neg (by simp [Ty.isArray]), storeRuling_error]
      exact Nat.zero_le _
  · exact Nat.le_refl _

/-- An expression has no more errors of its own where more of its parts are wrong already. -/
theorem length_verdict_le (h : Milder σ τ) (e : Expr) :
    (e.verdict env whole σ).errors.length ≤ (e.verdict env whole τ).errors.length := by
  cases e with
  | binary info op left right =>
    rw [Expr.verdict, Expr.verdict, Ruling.errors_verdict, Ruling.errors_verdict]
    exact length_binary_le (h left.id) (h right.id) info.span
  | unary info op operand =>
    rw [Expr.verdict, Expr.verdict, Ruling.errors_verdict, Ruling.errors_verdict]
    exact length_reported_le (f := fun t => (unaryRuling op.spelling t).fault?) (h operand.id) rfl info.span
  | assign info target value =>
    rw [Expr.verdict, Expr.verdict]
    split_ifs
    · rw [Ruling.errors_verdict, Ruling.errors_verdict]
      exact length_assign_le (h target.id) (h value.id) info.span
    · exact Nat.le_refl 1
  | arrayAccess info ident index =>
    rw [Expr.verdict, Expr.verdict]
    split
    · exact Nat.le_refl 1
    · split
      · exact Nat.le_refl 1
      · rcases h index.id with he | he
        · rw [he]
          exact Nat.zero_le _
        · exact Nat.le_of_eq (by rw [he])
  | call info ident args =>
    rw [Expr.verdict, Expr.verdict]
    split_ifs
    · exact Nat.le_refl 1
    · split
      · exact Nat.le_refl 1
      · split
        · exact Nat.le_refl 1
        · rename_i params _
          rw [argumentErrors, argumentErrors, List.length_append, List.length_append]
          exact Nat.add_le_add_right (length_rowErrors_le (length_arguments_le params) h 0 args) _
  | _ => exact Nat.le_refl _

/-- The initial value of a scalar is stored into it, unless it is a list. -/
theorem VarDecl.initErrors_scalar {d : VarDecl} {init : Expr} (hinit : d.init = some init) (hty : d.ty.isArray = false)
    (hlist : init.isList = false) (τ : ExprId → Ty) : d.initErrors τ =
      reported (storeRuling .incompatibleAssignment d.ty (τ init.id)).fault? d.span := by
  unfold initErrors
  rw [hinit]
  cases hd : d.ty with
  | array element size =>
    rw [hd] at hty
    cases hty
  | _ => cases init <;> first | rfl | cases hlist

theorem VarDecl.length_initErrors_le (h : Milder σ τ) (d : VarDecl) :
    (d.initErrors σ).length ≤ (d.initErrors τ).length := by
  have hstore (fault : Fault) (target t : Ty) (span : Span) :
      (reported (storeRuling fault target .error).fault? span).length ≤
        (reported (storeRuling fault target t).fault? span).length := by
    rw [storeRuling_error]
    exact Nat.zero_le _
  unfold initErrors
  split
  · exact Nat.le_refl _
  · exact Nat.le_refl _
  · rw [elementErrors, elementErrors, List.length_append, List.length_append]
    exact Nat.add_le_add_right (length_rowErrors_le (fun _ => hstore _ _) h 0 _) _
  · exact Nat.le_refl _
  · exact Nat.le_refl _
  · exact length_reported_le (f := fun t => (storeRuling _ d.ty t).fault?) (h _) (storeRuling_error _ _) d.span

theorem length_returnErrors_le {s t : Ty} (h : s = .error ∨ s = t) (function : Option Prototype) (span : Span) :
    (returnErrors function span s).length ≤ (returnErrors function span t).length := by
  unfold returnErrors
  split
  · exact Nat.le_refl _
  · rename_i g
    split_ifs
    · exact length_reported_le h rfl span
    · exact length_reported_le (f := fun t => (storeRuling _ g.ty t).fault?) h (storeRuling_error _ _) span

theorem Stmt.length_ownErrors_le (h : Milder σ τ) (s : Stmt) :
    (s.ownErrors options k σ).length ≤ (s.ownErrors options k τ).length := by
  have hcond (fault : Ty → Fault) (cond : Expr) : (reported (conditionFault? fault (σ cond.id)) cond.span).length ≤
      (reported (conditionFault? fault (τ cond.id)) cond.span).length := length_reported_le (h cond.id) rfl cond.span
  cases s with
  | ifThen info cond thenBranch => exact hcond _ cond
  | ifElse info cond thenBranch elseBranch => exact hcond _ cond
  | whileStmt info cond body => exact hcond _ cond
  | forStmt info init cond update body =>
    cases cond with
    | none => exact Nat.le_refl _
    | some cond => exact hcond _ cond
  | returnStmt info value =>
    cases value with
    | none => exact Nat.le_refl _
    | some value => exact length_returnErrors_le (h value.id) k.function info.span
  | _ => exact Nat.le_refl _

/-- A construct has no more errors of its own where more of its parts are wrong already. -/
theorem Construct.length_ownErrors_le (h : Milder σ τ) (c : Construct) :
    (c.ownErrors options k σ).length ≤ (c.ownErrors options k τ).length := by
  cases c with
  | expr whole e => exact length_verdict_le h e
  | var d =>
    rw [ownErrors, ownErrors, VarDecl.ownErrors, VarDecl.ownErrors, List.length_append, List.length_append]
    refine Nat.add_le_add_left ?_ _
    split
    · exact Nat.le_refl _
    · exact d.length_initErrors_le h
  | stmt s => exact s.length_ownErrors_le h
  | func f => exact Nat.le_refl _

/-! ## What is spared -/

/-- Errors of one kind for some expressions of a row, none of which is of type `error`. -/
def Blames (τ : ExprId → Ty) (fault : Fault) (es : List Expr) (errors : List Error) : Prop :=
  ∃ wrong : List Expr, wrong.Sublist es ∧ (∀ e ∈ wrong, τ e.id ≠ .error) ∧ errors = wrong.map fun e => ⟨fault, e.span⟩

/-- What is not among the errors of an expression because of parts that are wrong already. -/
def Expr.Spared (τ : ExprId → Ty) (errors : List Error) : Expr → Prop
  | unary _ _ operand => τ operand.id = .error → errors = []
  | binary _ _ left right => τ left.id = .error ∨ τ right.id = .error → errors = []
  | assign _ target value => target.isLvalue = true → τ target.id = .error ∨ τ value.id = .error →
    (τ target.id).isArray = false → (τ value.id).isArray = false → errors = []
  | arrayAccess _ _ index => τ index.id = .error → numbered 17 errors = []
  | call _ _ args => Blames τ .wrongArgumentType args (numbered 27 errors)
  | initList _ _ => errors = []
  | _ => True

/-- What is not among the errors of a statement because of a part that is wrong already. -/
def Stmt.Spared (τ : ExprId → Ty) (errors : List Error) : Stmt → Prop
  | ifThen _ cond _ => τ cond.id = .error → errors = []
  | ifElse _ cond _ _ => τ cond.id = .error → errors = []
  | whileStmt _ cond _ => τ cond.id = .error → errors = []
  | forStmt _ _ (some cond) _ _ => τ cond.id = .error → errors = []
  | returnStmt _ (some value) => τ value.id = .error → errors = []
  | _ => True

/-- What is not among the errors of a variable because of an initial value that is wrong already, or of elements of a
list that are. A list for a scalar is wrong by its form. -/
structure VarDecl.Spared (env : Env) (τ : ExprId → Ty) (errors : List Error) (d : VarDecl) : Prop where
  /-- Where there can be no value at all, an initial value is not looked at, be it a list or not. -/
  void : ∀ fault, voidFault? d.ident.spelling d.ty = some fault →
    errors = redeclaration env d.ident ++ [⟨fault, d.ident.span⟩]
  scalar : ∀ init, d.init = some init → d.ty.isArray = false → d.ty ≠ .void → init.isList = false →
    τ init.id = .error → errors = redeclaration env d.ident
  array : ∀ element size info elements, d.ty = .array element size → element ≠ .void →
    d.init = some (.initList info elements) → ∃ wrong, Blames τ .wrongInitialiserElement elements wrong ∧
      errors = redeclaration env d.ident ++
        (wrong ++ if elements.length > size.getD elements.length then [⟨.excessElements, info.span⟩] else [])

/-- What is not among the errors of a construct because of parts that are wrong already. -/
def Construct.Spared (k : Checker) (τ : ExprId → Ty) (errors : List Error) : Construct → Prop
  | expr _ e => e.Spared τ errors
  | var d => d.Spared k.env τ errors
  | stmt s => s.Spared τ errors
  | func _ => True

/-- The errors of one kind that a rule reports of a row are for expressions of other types than `error`. -/
theorem blames_rowErrors {rule : Nat → Ty → Ruling Bool} {fault : Fault}
    (hrule : ∀ i t f, (rule i t).fault? = some f → f.number? = some n → f = fault ∧ t ≠ .error) (i : Nat)
    (es : List Expr) : Blames τ fault es (numbered n (rowErrors rule τ i es)) := by
  induction es generalizing i with
  | nil => exact ⟨[], .slnil, by simp, rfl⟩
  | cons e es ih =>
    obtain ⟨wrong, hsub, hne, heq⟩ := ih (i + 1)
    rw [rowErrors_cons, numbered_append, heq]
    rcases hf : (rule i (τ e.id)).fault? with _ | f
    · exact ⟨wrong, hsub.cons e, hne, rfl⟩
    by_cases hn : f.number? = some n
    · obtain ⟨rfl, he⟩ := hrule i (τ e.id) f hf hn
      refine ⟨e :: wrong, hsub.cons_cons e, List.forall_mem_cons.2 ⟨he, hne⟩, ?_⟩
      rw [reported_some, (ofNumbers_some hn (by simp)).numbered_eq]
      rfl
    · refine ⟨wrong, hsub.cons e, hne, ?_⟩
      rw [reported_some, numbered, List.filter_cons_of_neg (by simpa using hn)]
      rfl

theorem blames_arguments (params : List Ty) (args : List Expr) (span : Span) :
    Blames τ .wrongArgumentType args (numbered 27 (argumentErrors params args span τ)) := by
  have hfew : numbered 27 (if args.length < params.length then [⟨.tooFewArguments, span⟩] else []) = [] := by
    split_ifs <;> rfl
  rw [argumentErrors, numbered_append, hfew, List.append_nil]
  refine blames_rowErrors (fun i t f hf hn => ?_) 0 args
  unfold argumentRulingAt at hf
  split at hf
  · unfold argumentRuling at hf
    split_ifs at hf with hfits
    · cases hf
    · cases hf
      refine ⟨rfl, ?_⟩
      rintro rfl
      exact hfits (argumentFits_error _)
  · split_ifs at hf
    · cases hf
      cases hn
    · cases hf

theorem blames_elements (element : Ty) (elements : List Expr) : Blames τ .wrongInitialiserElement elements
    (rowErrors (fun _ => storeRuling .wrongInitialiserElement element) τ 0 elements) := by
  have hnumber : OfNumbers [13] (rowErrors (fun _ => storeRuling .wrongInitialiserElement element) τ 0 elements) :=
    ofNumbers_rowErrors (fun _ t span => ofNumbers_store rfl element t span) τ 0 elements
  rw [← hnumber.numbered_eq]
  refine blames_rowErrors (fun i t f hf hn => ?_) 0 elements
  unfold storeRuling at hf
  split_ifs at hf with hfits
  · cases hf
  · cases hf
    refine ⟨rfl, ?_⟩
    rintro rfl
    exact hfits (Ty.assignable_error_right _)

theorem Expr.spared (τ : ExprId → Ty) (e : Expr) : e.Spared τ (e.verdict env whole τ).errors := by
  cases e with
  | unary info op operand =>
    intro h
    rw [verdict, h]
    rfl
  | binary info op left right =>
    intro h
    rw [verdict, binaryRuling, if_pos (by rcases h with h | h <;> simp [h, Ty.isError])]
    rfl
  | assign info target value =>
    intro hl h htarget hvalue
    have hfits : (τ target.id).assignable (τ value.id) = true := by
      rcases h with h | h
      · rw [h, Ty.assignable_error_left]
      · rw [h, Ty.assignable_error_right]
    rw [verdict, if_pos hl, assignRuling, if_neg (by simp [htarget]), if_neg (by simp [hvalue]), storeRuling,
      if_pos hfits]
    rfl
  | arrayAccess info ident index =>
    intro h
    rw [verdict, h]
    split
    · rfl
    · split <;> rfl
  | call info ident args =>
    have hnone {errors : List Error} (h : numbered 27 errors = []) :
        Blames τ .wrongArgumentType args (numbered 27 errors) := ⟨[], List.nil_sublist args, by simp, h⟩
    rw [Spared, verdict]
    split_ifs
    · exact hnone rfl
    · split
      · exact hnone rfl
      · split
        · exact hnone rfl
        · exact blames_arguments _ args info.span
  | initList info elements => rfl
  | _ => trivial

theorem returnErrors_error (function : Option Prototype) (span : Span) : returnErrors function span .error = [] := by
  unfold returnErrors
  split
  · rfl
  · split_ifs
    · rfl
    · rw [storeRuling_error]
      rfl

theorem Stmt.spared (options : Options) (k : Checker) (τ : ExprId → Ty) (s : Stmt) :
    s.Spared τ (s.ownErrors options k τ) := by
  have hcond (fault : Ty → Fault) (cond : Expr) (h : τ cond.id = .error) :
      reported (conditionFault? fault (τ cond.id)) cond.span = [] := by
    rw [h]
    rfl
  cases s with
  | ifThen info cond thenBranch => exact hcond _ cond
  | ifElse info cond thenBranch elseBranch => exact hcond _ cond
  | whileStmt info cond body => exact hcond _ cond
  | forStmt info init cond update body =>
    cases cond with
    | none => trivial
    | some cond => exact hcond _ cond
  | returnStmt info value =>
    cases value with
    | none => trivial
    | some value =>
      intro h
      rw [ownErrors, h, returnErrors_error]
  | _ => trivial

theorem VarDecl.spared (env : Env) (τ : ExprId → Ty) (d : VarDecl) : d.Spared env τ (d.ownErrors env τ) := by
  constructor
  · intro fault hfault
    rw [ownErrors, hfault]
  · intro init hinit hty hvoid hlist h
    have hnone : voidFault? d.ident.spelling d.ty = none := by
      cases hd : d.ty <;> simp_all [voidFault?, Ty.isArray]
    rw [ownErrors, hnone]
    simp only
    rw [d.initErrors_scalar hinit hty hlist, h, storeRuling_error]
    exact List.append_nil _
  · intro element size info elements hty hvoid hinit
    have hnone : voidFault? d.ident.spelling d.ty = none := by
      rw [hty]
      cases element <;> simp_all [voidFault?]
    refine ⟨_, blames_elements element elements, ?_⟩
    rw [ownErrors, hnone]
    simp only [initErrors, hty, hinit, elementErrors]

/-- Of any construct nothing is reported on account of parts that are wrong already. -/
theorem Construct.spared (options : Options) (k : Checker) (τ : ExprId → Ty) (c : Construct) :
    c.Spared k τ (c.ownErrors options k τ) := by
  cases c with
  | expr whole e => exact e.spared τ
  | var d => exact d.spared k.env τ
  | stmt s => exact s.spared options k τ
  | func f => trivial

/-! ## Behind a parse -/

/-- What a construct reports at a place, where expressions are of the given types and some are wrong already. -/
structure Contagion (options : Options) (k : Checker) (τ : ExprId → Ty) (c : Construct) : Prop where
  spared : c.Spared k τ (c.ownErrors options k τ)
  fewest : ∀ x t, τ x = .error →
    (c.ownErrors options k τ).length ≤ (c.ownErrors options k (Function.update τ x t)).length

/-- Whatever is wrong with what was parsed, what is reported of a construct is what is reported of its parts and what
is its own; and nothing of that is on account of a part of type `error`, nor would it be less if the part were of
another type. -/
theorem check_reports_once {source : String} {p : Program} (h : (parse source).result = .ok p) (options : Options) :
    ∃ vs all, Visited options p vs all ∧ ∀ v ∈ all, ∃ ws ⊆ all, v.Splits options ws ∧
      v.errors.Perm (v.construct.ownErrors options v.place (check options p).1.arena.typeOf ++ ws.flatMap (·.errors)) ∧
      Contagion options v.place (check options p).1.arena.typeOf v.construct := by
  obtain ⟨hplain, hnumbered⟩ := parse_built h
  obtain ⟨vs, all, hvisited⟩ := visited_check options hplain hnumbered.complete
  refine ⟨vs, all, hvisited, fun v hv => ?_⟩
  obtain ⟨ws, hws, hsplit⟩ := hvisited.walk.splits v hv
  have htyped : ∀ w ∈ ws, w.TypedBy (check options p).1.arena.typeOf := fun w hw =>
    (hvisited.fits w (hws hw)).typed (hvisited.ran w (hws hw))
  exact ⟨ws, hws, hsplit, hsplit.errors _ htyped, v.construct.spared options v.place _, fun x t hx =>
    v.construct.length_ownErrors_le (milder_update hx t)⟩

/-- Names without declarations as operands, condition, argument, subscript, element, initial value, right side of an
assignment and result, besides mistakes that are reported nevertheless. -/
theorem check_reports_once_mixed : ∃ source p, (parse source).result = .ok p ∧ ∃ vs all, Visited .standard p vs all ∧
    ∀ v ∈ all, ∃ ws ⊆ all, v.Splits .standard ws ∧
      v.errors.Perm (v.construct.ownErrors .standard v.place (check .standard p).1.arena.typeOf ++
        ws.flatMap (·.errors)) ∧
      Contagion .standard v.place (check .standard p).1.arena.typeOf v.construct := by
  let source := "int f(int a){int x = -y + 1; int b[1] = {y, true}; if(y) x = y; f(y, b[y]); y = b; return y;}"
  have hparses : (parse source).result.isOk = true := by decide +kernel
  obtain ⟨p, hp⟩ := exists_of_isOk hparses
  exact ⟨source, p, hp, check_reports_once hp .standard⟩

/-- A list for a scalar is of type `error`, and yet it is reported: all that is wrong here is the initial value of the
variable, not the element of the list. -/
theorem list_for_scalar_reported : ∃ p m, (parse "int main(){int x = {1}; return 0;}").result = .ok p ∧
    (check .standard p).1.arena.decl? ⟨0⟩ = some m ∧ m.kind = .localVar (some ⟨1⟩) ∧ m.ty = .int ∧
    (check .standard p).1.arena.type? ⟨1⟩ = some .error ∧
    (check .standard p).2 = [⟨.arrayInitialiserForScalar, m.span⟩] := by
  let source := "int main(){int x = {1}; return 0;}"
  have hparses : (parse source).result.isOk = true := by decide +kernel
  obtain ⟨p, hp⟩ := exists_of_isOk hparses
  let span : Span := ⟨⟨1, 12⟩, ⟨1, 23⟩⟩
  have hchecked : ((parse source).result.toOption.any fun p => decide (
      ((check .standard p).1.arena.decl? ⟨0⟩).map (fun m => (m.kind, m.ty, m.span)) =
        some (.localVar (some ⟨1⟩), .int, span) ∧
      (check .standard p).1.arena.type? ⟨1⟩ = some .error ∧
      (check .standard p).2 = [⟨.arrayInitialiserForScalar, span⟩])) = true := by decide +kernel
  rw [hp] at hchecked
  obtain ⟨hdecl, htype, herrors⟩ := of_decide_eq_true hchecked
  obtain ⟨m, hm, hm'⟩ := Option.map_eq_some_iff.1 hdecl
  obtain ⟨hkind, hm'⟩ := Prod.mk.inj hm'
  obtain ⟨hty, hspan⟩ := Prod.mk.inj hm'
  exact ⟨p, m, hp, hm, hkind, hty, htype, by rw [herrors, hspan]⟩

end VCLang
