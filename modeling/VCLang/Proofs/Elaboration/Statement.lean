/-
What a check makes of variables, statements, functions and programs, whatever it reports. The scopes and
the number of the next new expression are all that it needs of a place: neither the loops and the function
around it nor the options change what becomes of the tree.
-/
import VCLang.Proofs.Elaboration.Expression
import VCLang.Proofs.Typing.Program
namespace VCLang.Typing

open Check

variable {options : Options} {env env' : Env} {k k' : Checker} {n n' : Nat} {errors : List Error}

/-! ## The state -/

section State

variable {α : Type} {u : Unit}

@[simp] theorem ends_onExpr {m : Env → Check Nat α} {a : α} :
    (onExpr m).Ends k a k' errors ↔ ∃ n', (m k.env).Ends k.nextExpr a n' errors ∧ k' = { k with nextExpr := n' } := by
  simp only [onExpr, Ends]
  rcases m k.env k.nextExpr with ⟨b, n', errors'⟩
  constructor
  · rintro ⟨⟩
    exact ⟨n', rfl, rfl⟩
  · rintro ⟨n'', ⟨⟩, rfl⟩
    rfl

@[simp] theorem ends_openScope :
    openScope.Ends k u k' errors ↔ k' = { k with env := k.env.openScope } ∧ errors = [] := ends_modify

@[simp] theorem ends_closeScope :
    closeScope.Ends k u k' errors ↔ k' = { k with env := k.env.closeScope } ∧ errors = [] := ends_modify

@[simp] theorem ends_enterLoop :
    enterLoop.Ends k u k' errors ↔ k' = { k with loopDepth := k.loopDepth + 1 } ∧ errors = [] := ends_modify

@[simp] theorem ends_leaveLoop :
    leaveLoop.Ends k u k' errors ↔ k' = { k with loopDepth := k.loopDepth - 1 } ∧ errors = [] := ends_modify

/-- What the declaration of a name reports: that the innermost scope has the name already. -/
def redeclaration (env : Env) (ident : Ident) : List Error :=
  if (env.retrieveOneLevel ident.spelling).isSome then [⟨.redeclared ident.spelling, ident.span⟩] else []

@[simp] theorem ends_declare {ident : Ident} {b : Binding} :
    (declare ident b).Ends k u k' errors ↔
      k' = { k with env := k.env.insert ident.spelling b } ∧ errors = redeclaration k.env ident := by
  unfold declare bindName
  simp only [ends_bind, ends_get]
  have hrest : (if (k.env.retrieveOneLevel ident.spelling).isSome then
        report (.redeclared ident.spelling) ident.span >>= fun _ =>
          modify fun k => { k with env := k.env.insert ident.spelling b }
      else modify fun k => { k with env := k.env.insert ident.spelling b } : Check Checker Unit).Ends k u k' errors ↔
        k' = { k with env := k.env.insert ident.spelling b } ∧ errors = redeclaration k.env ident := by
    unfold redeclaration
    split_ifs
    · simp [and_comm]
    · exact ends_modify
  constructor
  · rintro ⟨_, _, _, _, rfl, ⟨rfl, rfl, rfl⟩, h⟩
    exact hrest.1 h
  · intro h
    exact ⟨k, k, [], errors, rfl, ⟨rfl, rfl, rfl⟩, hrest.2 h⟩

end State

/-! ## Expressions in their places -/

/-- An expression that may be absent is checked, and converted where that is asked for. -/
inductive ElaboratesOption (env : Env) (n : Nat) : Option Expr → Option Expr → Nat → List Error → Prop
  | none {own : List Error} : Nameless own → ElaboratesOption env n none none n own
  | some {e checked e' : Expr} {n₁ n' : Nat} {errors own : List Error} : Elaborates env n e checked n₁ errors →
    Converted n₁ checked e' n' → Nameless own → ElaboratesOption env n (some e) (some e') n' (errors ++ own)

theorem elaborates_checkOption {o o' : Option Expr} (h : (checkOption o).Ends k o' k' errors) :
    ∃ n', ElaboratesOption k.env k.nextExpr o o' n' errors ∧ k' = { k with nextExpr := n' } := by
  cases o with
  | none =>
    obtain ⟨rfl, rfl, rfl⟩ := ends_pure.1 h
    exact ⟨_, .none nameless_nil, rfl⟩
  | some e =>
    simp only [checkOption, ends_bind, ends_onExpr, ends_pure] at h
    obtain ⟨e', _, errors, _, rfl, ⟨n', he, rfl⟩, rfl, rfl, rfl⟩ := h
    exact ⟨n', .some (elaborates_checkExpr he) .keep nameless_nil, rfl⟩

/-- More may be reported behind a part, as long as it is not about names. -/
theorem ElaboratesOption.report {o o' : Option Expr} {own : List Error} (h : ElaboratesOption env n o o' n' errors)
    (hown : Nameless own) : ElaboratesOption env n o o' n' (errors ++ own) := by
  cases h with
  | none h => exact .none (nameless_append.2 ⟨h, hown⟩)
  | some he hc h =>
    rw [List.append_assoc]
    exact .some he hc (nameless_append.2 ⟨h, hown⟩)

/-- A condition is checked. -/
theorem elaborates_checkCondition {fault : Ty → Fault} {cond cond' : Expr} (hfault : ∀ t, (fault t).isOfName = false)
    (h : (checkCondition fault cond).Ends k cond' k' errors) :
    ∃ n' first own, Elaborates k.env k.nextExpr cond cond' n' first ∧ Nameless own ∧ errors = first ++ own ∧
      k' = { k with nextExpr := n' } := by
  simp only [checkCondition, ends_bind, ends_onExpr, ends_reportOption, ends_pure] at h
  obtain ⟨cond', _, first, _, rfl, ⟨n', hc, rfl⟩, _, _, own, _, rfl, ⟨rfl, rfl⟩, rfl, rfl, rfl⟩ := h
  rw [List.append_nil]
  refine ⟨n', first, _, elaborates_checkExpr hc, ?_, rfl, rfl⟩
  unfold conditionFault?
  split_ifs <;> simp [hfault]

/-- The condition of a `for` loop: `true` is put in where it is omitted. -/
inductive ElaboratesForCondition (env : Env) (n : Nat) (span : Span) :
    Option Expr → Expr → Nat → List Error → Prop
  | omitted : ElaboratesForCondition env n span none (.literal ⟨⟨n⟩, span, some .boolean⟩ (.boolean "true")) (n + 1) []
  | given {cond cond' : Expr} {n' : Nat} {errors own : List Error} : Elaborates env n cond cond' n' errors →
    Nameless own → ElaboratesForCondition env n span (some cond) cond' n' (errors ++ own)

theorem elaborates_forCondition {span : Span} {fault : Ty → Fault} {cond : Option Expr} {cond' : Expr}
    (hfault : ∀ t, (fault t).isOfName = false)
    (h : (fillCondition span cond >>= checkCondition fault).Ends k cond' k' errors) :
    ∃ n', ElaboratesForCondition k.env k.nextExpr span cond cond' n' errors ∧ k' = { k with nextExpr := n' } := by
  cases cond with
  | none =>
    simp only [fillCondition, checkCondition, ends_bind, ends_onExpr, ends_reportOption, ends_pure, bind_assoc,
      pure_bind, checkExpr] at h
    obtain ⟨id, _, _, _, rfl, ⟨_, hfresh, rfl⟩, _, _, _, _, rfl, ⟨_, ⟨rfl, rfl, rfl⟩, rfl⟩, h⟩ := h
    cases hfresh
    obtain ⟨_, _, _, _, rfl, ⟨rfl, rfl⟩, rfl, rfl, rfl⟩ := h
    exact ⟨_, .omitted, rfl⟩
  | some cond =>
    rw [fillCondition, pure_bind] at h
    obtain ⟨n', first, own, hc, hown, rfl, rfl⟩ := elaborates_checkCondition hfault h
    exact ⟨n', .given hc hown, rfl⟩

theorem elaborates_checkReturn {span : Span} {o o' : Option Expr} (h : (checkReturn span o).Ends k o' k' errors) :
    ∃ n', ElaboratesOption k.env k.nextExpr o o' n' errors ∧ k' = { k with nextExpr := n' } := by
  unfold checkReturn at h
  simp only [ends_bind, ends_get] at h
  obtain ⟨checked, k₁, first, _, rfl, hchecked, _, _, _, own, rfl, ⟨rfl, rfl, rfl⟩, h⟩ := h
  rw [List.nil_append]
  obtain ⟨n₁, hoption, rfl⟩ := elaborates_checkOption hchecked
  split at h
  · obtain ⟨rfl, rfl, rfl⟩ := ends_pure.1 h
    rw [List.append_nil]
    exact ⟨n₁, hoption, rfl⟩
  split_ifs at h
  · simp only [ends_bind, ends_reportOption, ends_pure] at h
    obtain ⟨_, _, _, _, rfl, ⟨rfl, rfl⟩, rfl, rfl, rfl⟩ := h
    rw [List.append_nil]
    refine ⟨n₁, hoption.report ?_, rfl⟩
    unfold mainReturnFault?
    split_ifs <;> simp [Fault.isOfName]
  rename_i f _ _
  obtain ⟨n', hsettle, rfl⟩ := ends_onExpr.1 h
  have hown (source : Ty) := nameless_storeRuling (f := .incompatibleReturn) rfl f.ty source span
  cases o with
  | none =>
    obtain ⟨rfl, -, -⟩ := ends_pure.1 hchecked
    simp only [settleOption, ends_bind, ends_reportOption, ends_pure] at hsettle
    obtain ⟨_, _, _, _, rfl, ⟨rfl, rfl⟩, rfl, rfl, rfl⟩ := hsettle
    rw [List.append_nil]
    exact ⟨_, hoption.report (hown _), rfl⟩
  | some e =>
    simp only [checkOption, ends_bind, ends_onExpr, ends_pure] at hchecked
    obtain ⟨e', _, first, _, rfl, ⟨n₁, he, rfl⟩, rfl, hn, rfl⟩ := hchecked
    cases hn
    simp only [settleOption, ends_map] at hsettle
    obtain ⟨e'', hsettle, rfl⟩ := hsettle
    obtain ⟨hconverted, rfl⟩ := ends_settle hsettle int_of_storeRuling
    rw [List.append_nil]
    exact ⟨n', .some (elaborates_checkExpr he) hconverted (hown _), rfl⟩

/-! ## Variables -/

/-- What becomes of a variable that is in scope already: its initial value is checked, and a list of initial
values gives an array the size that is not written. -/
inductive ElaboratesInit (env : Env) (n : Nat) (d : VarDecl) : VarDecl → Nat → List Error → Prop
  | none {own : List Error} : d.init = none → Nameless own → ElaboratesInit env n d d n own
  | value {e checked e' : Expr} {n₁ n' : Nat} {first errors own : List Error} : d.init = some e → Nameless first →
    Elaborates env n e checked n₁ errors → Converted n₁ checked e' n' → Nameless own →
    ElaboratesInit env n d { d with init := some e' } n' (first ++ errors ++ own)
  | list {element : Ty} {size : Option Nat} {info : ExprInfo} {elements elements' : List Expr} {t : Ty} {n' : Nat}
    {errors own : List Error} : d.ty = .array element size → d.init = some (.initList info elements) →
    t = .array element (some (size.getD elements.length)) → ElaboratesAll env n elements elements' n' errors →
    Nameless own →
    ElaboratesInit env n d { d with ty := t, init := some (.initList (info.typed t) elements') } n' (errors ++ own)

theorem nameless_voidFault {name : String} {t : Ty} {f : Fault} (h : voidFault? name t = some f) :
    f.isOfName = false := by
  unfold voidFault? at h
  split at h <;> cases h <;> rfl

theorem elaborates_checkWrongInit {d d' : VarDecl} {init : Expr} {f : Fault} (hinit : d.init = some init)
    (hf : f.isOfName = false) (h : (checkWrongInit d init f).Ends k d' k' errors) :
    ∃ n', ElaboratesInit k.env k.nextExpr d d' n' errors ∧ k' = { k with nextExpr := n' } := by
  simp only [checkWrongInit, ends_bind, ends_onExpr, ends_report, ends_pure] at h
  obtain ⟨e', _, first, _, rfl, ⟨n', he, rfl⟩, _, _, _, _, rfl, ⟨rfl, rfl⟩, rfl, rfl, rfl⟩ := h
  rw [List.append_nil]
  exact ⟨n', .value hinit nameless_nil (elaborates_checkExpr he) .keep (by simpa using hf), rfl⟩

theorem elaborates_checkScalarInit {d d' : VarDecl} {init : Expr} (hinit : d.init = some init)
    (h : (checkScalarInit d init).Ends k d' k' errors) :
    ∃ n', ElaboratesInit k.env k.nextExpr d d' n' errors ∧ k' = { k with nextExpr := n' } := by
  simp only [checkScalarInit, ends_bind, ends_onExpr, ends_pure] at h
  obtain ⟨e', _, _, _, rfl, ⟨n', ⟨checked, n₁, first, own, rfl, he, hsettle⟩, rfl⟩, rfl, rfl, rfl⟩ := h
  obtain ⟨hconverted, rfl⟩ := ends_settle hsettle int_of_storeRuling
  rw [List.append_nil]
  exact ⟨n', .value hinit nameless_nil (elaborates_checkExpr he) hconverted (nameless_storeRuling rfl _ _ _), rfl⟩

theorem elaborates_checkArrayInit {d d' : VarDecl} {element : Ty} {size : Option Nat} {info : ExprInfo}
    {elements : List Expr} (hty : d.ty = .array element size) (hinit : d.init = some (.initList info elements))
    (h : (checkArrayInit d element size info elements).Ends k d' k' errors) :
    ∃ n', ElaboratesInit k.env k.nextExpr d d' n' errors ∧ k' = { k with nextExpr := n' } := by
  simp only [checkArrayInit, ends_bind, ends_onExpr] at h
  obtain ⟨elements', _, first, _, rfl, ⟨n', helements, rfl⟩, h⟩ := h
  have hall := elaboratesAll_checkElements helements
  split_ifs at h
  · simp only [ends_bind, ends_report, ends_pure] at h
    obtain ⟨_, _, _, _, rfl, ⟨rfl, rfl⟩, rfl, rfl, rfl⟩ := h
    exact ⟨n', .list hty hinit rfl hall (by simp [Fault.isOfName]), rfl⟩
  · obtain ⟨rfl, rfl, rfl⟩ := ends_pure.1 h
    exact ⟨n', .list hty hinit rfl hall nameless_nil, rfl⟩

theorem elaborates_checkInit {d d' : VarDecl} (h : (checkInit d).Ends k d' k' errors) :
    ∃ n', ElaboratesInit k.env k.nextExpr d d' n' errors ∧ k' = { k with nextExpr := n' } := by
  unfold checkInit at h
  split at h
  · rename_i hinit
    simp only [ends_bind, ends_report, ends_pure] at h
    obtain ⟨_, _, _, _, rfl, ⟨rfl, rfl⟩, rfl, rfl, rfl⟩ := h
    exact ⟨_, .none hinit (by simp [Fault.isOfName]), rfl⟩
  · rename_i hinit _
    obtain ⟨rfl, rfl, rfl⟩ := ends_pure.1 h
    exact ⟨_, .none hinit nameless_nil, rfl⟩
  · rename_i hty hinit
    exact elaborates_checkArrayInit hty hinit h
  · rename_i hinit
    exact elaborates_checkWrongInit hinit rfl h
  · rename_i hinit _
    exact elaborates_checkWrongInit hinit rfl h
  · rename_i hinit _ _
    exact elaborates_checkScalarInit hinit h

theorem elaborates_checkVarDecl {d d' : VarDecl} (h : (checkVarDecl d).Ends k d' k' errors) :
    ∃ n' own, ElaboratesInit (k.env.insert d.ident.spelling d.binding) k.nextExpr d d' n' own ∧
      errors = redeclaration k.env d.ident ++ own ∧
      k' = { k with env := k.env.insert d.ident.spelling d'.binding, nextExpr := n' } := by
  unfold checkVarDecl at h
  simp only [ends_bind, ends_get, ends_declare] at h
  obtain ⟨_, _, _, _, rfl, ⟨rfl, rfl, rfl⟩, _, _, _, own, rfl, ⟨rfl, rfl⟩, h⟩ := h
  rw [List.nil_append]
  split at h
  · rename_i f hf
    simp only [ends_bind, ends_report, ends_pure] at h
    obtain ⟨_, _, _, _, rfl, ⟨rfl, rfl⟩, init', _, rest, _, rfl, hinit, rfl, rfl, rfl⟩ := h
    have hfirst : Nameless [⟨f, d.ident.span⟩] := by simpa using nameless_voidFault hf
    obtain ⟨n', hoption, rfl⟩ := elaborates_checkOption hinit
    rw [List.append_nil]
    refine ⟨n', _, ?_, rfl, rfl⟩
    rcases d with ⟨id, ident, ty, span, isGlobal, init⟩
    dsimp only at hoption ⊢
    cases hoption with
    | none hown => exact .none rfl (nameless_append.2 ⟨hfirst, hown⟩)
    | some he hc hown =>
      rw [← List.append_assoc]
      exact .value rfl hfirst he hc hown
  · simp only [ends_bind, ends_modify, ends_pure] at h
    obtain ⟨d', _, own, _, rfl, hd, _, _, _, _, rfl, ⟨rfl, rfl⟩, rfl, rfl, rfl⟩ := h
    obtain ⟨n', hinit, rfl⟩ := elaborates_checkInit hd
    simp only [List.append_nil]
    refine ⟨n', own, hinit, rfl, ?_⟩
    cases hinit <;> rfl

/-- Variables are checked one after another; the second scopes are those of what follows. -/
inductive ElaboratesVars : Env → Nat → List VarDecl → List VarDecl → Env → Nat → List Error → Prop
  | nil {env : Env} {n : Nat} : ElaboratesVars env n [] [] env n []
  | cons {env env' : Env} {d d' : VarDecl} {ds ds' : List VarDecl} {n n₁ n' : Nat} {own more : List Error} :
    ElaboratesInit (env.insert d.ident.spelling d.binding) n d d' n₁ own →
    ElaboratesVars (env.insert d.ident.spelling d'.binding) n₁ ds ds' env' n' more →
    ElaboratesVars env n (d :: ds) (d' :: ds') env' n' (redeclaration env d.ident ++ own ++ more)

theorem elaborates_checkVarDecls {ds ds' : List VarDecl} (h : (checkVarDecls ds).Ends k ds' k' errors) :
    ElaboratesVars k.env k.nextExpr ds ds' k'.env k'.nextExpr errors ∧
      k' = { k with env := k'.env, nextExpr := k'.nextExpr } := by
  induction ds generalizing k ds' errors with
  | nil =>
    obtain ⟨rfl, rfl, rfl⟩ := ends_pure.1 h
    exact ⟨.nil, rfl⟩
  | cons d ds ih =>
    simp only [checkVarDecls, ends_bind, ends_pure] at h
    obtain ⟨d', _, _, _, rfl, hd, ds', _, more, _, rfl, hds, rfl, rfl, rfl⟩ := h
    obtain ⟨n', own, hinit, rfl, rfl⟩ := elaborates_checkVarDecl hd
    obtain ⟨hmore, hk⟩ := ih hds
    rw [List.append_nil]
    exact ⟨.cons hinit hmore, hk⟩

/-- Variables are declared in the innermost scope. -/
theorem ElaboratesVars.outer {ds ds' : List VarDecl} (h : ElaboratesVars env n ds ds' env' n' errors) :
    env'.outer = env.outer := by
  induction h with
  | nil => rfl
  | cons _ _ ih => exact ih

/-! ## Statements -/

mutual

/-- What the check of a statement makes of it. -/
inductive ElaboratesStmt : Env → Nat → Stmt → Stmt → Nat → List Error → Prop
  | compound {env env₁ : Env} {n n₁ n' : Nat} {info : StmtInfo} {decls decls' : List VarDecl}
    {stmts stmts' : List Stmt} {errors more : List Error} :
    ElaboratesVars env.openScope n decls decls' env₁ n₁ errors → ElaboratesStmts env₁ n₁ stmts stmts' n' more →
    ElaboratesStmt env n (.compound info decls stmts) (.compound info decls' stmts') n' (errors ++ more)
  | ifThen {env : Env} {n n₁ n' : Nat} {info : StmtInfo} {cond cond' : Expr} {thenBranch then' : Stmt}
    {errors own more : List Error} : Elaborates env n cond cond' n₁ errors → Nameless own →
    ElaboratesStmt env n₁ thenBranch then' n' more →
    ElaboratesStmt env n (.ifThen info cond thenBranch) (.ifThen info cond' then') n' (errors ++ own ++ more)
  | ifElse {env : Env} {n n₁ n₂ n' : Nat} {info : StmtInfo} {cond cond' : Expr}
    {thenBranch then' elseBranch else' : Stmt} {errors own more last : List Error} :
    Elaborates env n cond cond' n₁ errors → Nameless own → ElaboratesStmt env n₁ thenBranch then' n₂ more →
    ElaboratesStmt env n₂ elseBranch else' n' last →
    ElaboratesStmt env n (.ifElse info cond thenBranch elseBranch) (.ifElse info cond' then' else') n'
      (errors ++ own ++ more ++ last)
  | whileStmt {env : Env} {n n₁ n' : Nat} {info : StmtInfo} {cond cond' : Expr} {body body' : Stmt}
    {errors own more : List Error} : Elaborates env n cond cond' n₁ errors → Nameless own →
    ElaboratesStmt env n₁ body body' n' more →
    ElaboratesStmt env n (.whileStmt info cond body) (.whileStmt info cond' body') n' (errors ++ own ++ more)
  | forStmt {env : Env} {n n₁ n₂ n₃ n' : Nat} {info : StmtInfo} {init init' cond update update' : Option Expr}
    {cond' : Expr} {body body' : Stmt} {first second third last : List Error} :
    ElaboratesOption env n init init' n₁ first → ElaboratesForCondition env n₁ info.span cond cond' n₂ second →
    ElaboratesOption env n₂ update update' n₃ third → ElaboratesStmt env n₃ body body' n' last →
    ElaboratesStmt env n (.forStmt info init cond update body) (.forStmt info init' (some cond') update' body') n'
      (first ++ second ++ third ++ last)
  | breakStmt {env : Env} {n : Nat} {info : StmtInfo} {own : List Error} : Nameless own →
    ElaboratesStmt env n (.breakStmt info) (.breakStmt info) n own
  | continueStmt {env : Env} {n : Nat} {info : StmtInfo} {own : List Error} : Nameless own →
    ElaboratesStmt env n (.continueStmt info) (.continueStmt info) n own
  | returnStmt {env : Env} {n n' : Nat} {info : StmtInfo} {value value' : Option Expr} {errors : List Error} :
    ElaboratesOption env n value value' n' errors →
    ElaboratesStmt env n (.returnStmt info value) (.returnStmt info value') n' errors
  | exprStmt {env : Env} {n n' : Nat} {info : StmtInfo} {expr expr' : Expr} {errors : List Error} :
    Elaborates env n expr expr' n' errors →
    ElaboratesStmt env n (.exprStmt info expr) (.exprStmt info expr') n' errors
  | emptyStmt {env : Env} {n : Nat} {info : StmtInfo} :
    ElaboratesStmt env n (.emptyStmt info) (.emptyStmt info) n []

/-- Statements are checked one after another. -/
inductive ElaboratesStmts : Env → Nat → List Stmt → List Stmt → Nat → List Error → Prop
  | nil {env : Env} {n : Nat} : ElaboratesStmts env n [] [] n []
  | cons {env : Env} {n n₁ n' : Nat} {s s' : Stmt} {ss ss' : List Stmt} {errors own more : List Error} :
    ElaboratesStmt env n s s' n₁ errors → Nameless own → ElaboratesStmts env n₁ ss ss' n' more →
    ElaboratesStmts env n (s :: ss) (s' :: ss') n' (errors ++ own ++ more)

end

/-- The check of a statement ends as the relation says, and leaves its place as it was. -/
def ElaboratesStmtAs (options : Options) (s : Stmt) : Prop :=
  ∀ ⦃k s' k' errors⦄, (checkStmt options s).Ends k s' k' errors →
    ∃ n', ElaboratesStmt k.env k.nextExpr s s' n' errors ∧ k' = { k with nextExpr := n' }

theorem elaborates_reportUnreachable {s : Stmt} {ss : List Stmt} {u : Unit}
    (h : (reportUnreachable options s ss).Ends k u k' errors) : k' = k ∧ Nameless errors := by
  cases ss with
  | nil =>
    obtain ⟨-, rfl, rfl⟩ := ends_pure.1 h
    exact ⟨rfl, nameless_nil⟩
  | cons next ss =>
    rw [reportUnreachable] at h
    split_ifs at h
    · obtain ⟨rfl, rfl⟩ := ends_report.1 h
      exact ⟨rfl, by simp [Fault.isOfName]⟩
    · obtain ⟨-, rfl, rfl⟩ := ends_pure.1 h
      exact ⟨rfl, nameless_nil⟩

theorem elaborates_requireLoop {f : Fault} {span : Span} {u : Unit} (hf : f.isOfName = false)
    (h : (requireLoop f span).Ends k u k' errors) : k' = k ∧ Nameless errors := by
  simp only [requireLoop, ends_bind, ends_get] at h
  obtain ⟨_, _, _, _, rfl, ⟨rfl, rfl, rfl⟩, h⟩ := h
  split_ifs at h
  · obtain ⟨rfl, rfl⟩ := ends_report.1 h
    exact ⟨rfl, by simpa using hf⟩
  · obtain ⟨-, rfl, rfl⟩ := ends_pure.1 h
    exact ⟨rfl, nameless_nil⟩

theorem elaborates_checkStmts_of {ss ss' : List Stmt} (hss : ∀ s ∈ ss, ElaboratesStmtAs options s)
    (h : (checkStmts options ss).Ends k ss' k' errors) :
    ∃ n', ElaboratesStmts k.env k.nextExpr ss ss' n' errors ∧ k' = { k with nextExpr := n' } := by
  induction ss generalizing k ss' errors with
  | nil =>
    obtain ⟨rfl, rfl, rfl⟩ := ends_pure.1 h
    exact ⟨_, .nil, rfl⟩
  | cons s ss ih =>
    simp only [checkStmts, ends_bind, ends_pure] at h
    obtain ⟨s', _, first, _, rfl, hs, _, _, own, _, rfl, hreport, ss', _, more, _, rfl, hrest, rfl, rfl, rfl⟩ := h
    obtain ⟨n₁, hfirst, rfl⟩ := hss s (by simp) hs
    obtain ⟨rfl, hown⟩ := elaborates_reportUnreachable hreport
    obtain ⟨n', hmore, rfl⟩ := ih (fun s hs => hss s (by simp [hs])) hrest
    rw [List.append_nil, ← List.append_assoc]
    exact ⟨n', .cons hfirst hown hmore, rfl⟩

theorem elaborates_compound {info : StmtInfo} {decls : List VarDecl} {stmts : List Stmt}
    (hstmts : ∀ s ∈ stmts, ElaboratesStmtAs options s) : ElaboratesStmtAs options (.compound info decls stmts) := by
  intro k s' k' errors h
  simp only [checkStmt, ends_bind, ends_openScope, ends_closeScope, ends_pure] at h
  obtain ⟨_, _, _, _, rfl, ⟨rfl, rfl⟩, decls', k₁, first, _, rfl, hdecls, stmts', k₂, more, _, rfl, hrest, _, _, _, _,
    rfl, ⟨rfl, rfl⟩, rfl, rfl, rfl⟩ := h
  obtain ⟨hvars, hk₁⟩ := elaborates_checkVarDecls hdecls
  obtain ⟨n', hstmts, rfl⟩ := elaborates_checkStmts_of hstmts hrest
  simp only [List.append_nil, List.nil_append]
  refine ⟨n', .compound hvars hstmts, ?_⟩
  rw [closeScope_of_outer hvars.outer, hk₁]

theorem elaborates_forStmt {info : StmtInfo} {init cond update : Option Expr} {body : Stmt}
    (ih : ElaboratesStmtAs options body) : ElaboratesStmtAs options (.forStmt info init cond update body) := by
  intro k s' k' errors h
  simp only [checkStmt, ends_bind, ends_enterLoop, ends_leaveLoop, ends_pure] at h
  obtain ⟨_, _, _, _, rfl, ⟨rfl, rfl⟩, init', _, first, _, rfl, hinit, filled, k₁, second, _, rfl, hfill, cond', k₂,
    second', _, rfl, hcheck, h⟩ := h
  obtain ⟨n₁, hi, rfl⟩ := elaborates_checkOption hinit
  -- filling in a condition and checking it are two steps of the check and one of the relation
  obtain ⟨n₂, hc, rfl⟩ := elaborates_forCondition (fun _ => rfl)
    (ends_bind.2 ⟨filled, k₁, second, second', rfl, hfill, hcheck⟩)
  obtain ⟨update', _, third, _, rfl, hupdate, body', _, last, _, rfl, hbody, _, _, _, _, rfl, ⟨rfl, rfl⟩, rfl, rfl,
    rfl⟩ := h
  obtain ⟨n₃, hu, rfl⟩ := elaborates_checkOption hupdate
  obtain ⟨n', hb, rfl⟩ := ih hbody
  refine ⟨n', ?_, rfl⟩
  have hfor := ElaboratesStmt.forStmt hi hc hu hb
  simpa using hfor

theorem elaboratesStmtAs (options : Options) (s : Stmt) : ElaboratesStmtAs options s := by
  induction s using Stmt.induct with
  | compound info decls stmts ih => exact elaborates_compound ih
  | ifThen info cond thenBranch ih =>
    intro k s' k' errors h
    simp only [checkStmt, ends_bind, ends_pure] at h
    obtain ⟨cond', _, _, _, rfl, hcond, then', _, more, _, rfl, hthen, rfl, rfl, rfl⟩ := h
    obtain ⟨n₁, first, own, hc, hown, rfl, rfl⟩ := elaborates_checkCondition (fun _ => rfl) hcond
    obtain ⟨n', ht, rfl⟩ := ih hthen
    rw [List.append_nil]
    exact ⟨n', .ifThen hc hown ht, rfl⟩
  | ifElse info cond thenBranch elseBranch ihThen ihElse =>
    intro k s' k' errors h
    simp only [checkStmt, ends_bind, ends_pure] at h
    obtain ⟨cond', _, _, _, rfl, hcond, then', _, more, _, rfl, hthen, else', _, last, _, rfl, helse, rfl, rfl,
      rfl⟩ := h
    obtain ⟨n₁, first, own, hc, hown, rfl, rfl⟩ := elaborates_checkCondition (fun _ => rfl) hcond
    obtain ⟨n₂, ht, rfl⟩ := ihThen hthen
    obtain ⟨n', he, rfl⟩ := ihElse helse
    rw [List.append_nil, ← List.append_assoc]
    exact ⟨n', .ifElse hc hown ht he, rfl⟩
  | whileStmt info cond body ih =>
    intro k s' k' errors h
    simp only [checkStmt, ends_bind, ends_enterLoop, ends_leaveLoop, ends_pure] at h
    obtain ⟨_, _, _, _, rfl, ⟨rfl, rfl⟩, cond', _, _, _, rfl, hcond, body', _, more, _, rfl, hbody, _, _, _, _, rfl,
      ⟨rfl, rfl⟩, rfl, rfl, rfl⟩ := h
    obtain ⟨n₁, first, own, hc, hown, rfl, rfl⟩ := elaborates_checkCondition (fun _ => rfl) hcond
    obtain ⟨n', hb, rfl⟩ := ih hbody
    simp only [List.append_nil, List.nil_append]
    exact ⟨n', .whileStmt hc hown hb, rfl⟩
  | forStmt info init cond update body ih => exact elaborates_forStmt ih
  | breakStmt info =>
    intro k s' k' errors h
    simp only [checkStmt, ends_bind, ends_pure] at h
    obtain ⟨_, _, own, _, rfl, hloop, rfl, rfl, rfl⟩ := h
    obtain ⟨rfl, hown⟩ := elaborates_requireLoop rfl hloop
    rw [List.append_nil]
    exact ⟨_, .breakStmt hown, rfl⟩
  | continueStmt info =>
    intro k s' k' errors h
    simp only [checkStmt, ends_bind, ends_pure] at h
    obtain ⟨_, _, own, _, rfl, hloop, rfl, rfl, rfl⟩ := h
    obtain ⟨rfl, hown⟩ := elaborates_requireLoop rfl hloop
    rw [List.append_nil]
    exact ⟨_, .continueStmt hown, rfl⟩
  | returnStmt info value =>
    intro k s' k' errors h
    simp only [checkStmt, ends_bind, ends_pure] at h
    obtain ⟨value', _, _, _, rfl, hvalue, rfl, rfl, rfl⟩ := h
    obtain ⟨n', hv, rfl⟩ := elaborates_checkReturn hvalue
    rw [List.append_nil]
    exact ⟨n', .returnStmt hv, rfl⟩
  | exprStmt info expr =>
    intro k s' k' errors h
    simp only [checkStmt, ends_bind, ends_onExpr, ends_pure] at h
    obtain ⟨expr', _, _, _, rfl, ⟨n', hexpr, rfl⟩, rfl, rfl, rfl⟩ := h
    rw [List.append_nil]
    exact ⟨n', .exprStmt (elaborates_checkExpr hexpr), rfl⟩
  | emptyStmt info =>
    intro k s' k' errors h
    obtain ⟨rfl, rfl, rfl⟩ := ends_pure.1 h
    exact ⟨_, .emptyStmt, rfl⟩

theorem elaborates_checkStmts {ss ss' : List Stmt} (h : (checkStmts options ss).Ends k ss' k' errors) :
    ∃ n', ElaboratesStmts k.env k.nextExpr ss ss' n' errors ∧ k' = { k with nextExpr := n' } :=
  elaborates_checkStmts_of (fun s _ => elaboratesStmtAs options s) h

/-! ## Functions and programs -/

/-- Parameters are declared one after another. -/
inductive ElaboratesParams : Env → List Param → Env → List Error → Prop
  | nil {env : Env} : ElaboratesParams env [] env []
  | cons {env env' : Env} {p : Param} {ps : List Param} {own more : List Error} : Nameless own →
    ElaboratesParams (env.insert p.ident.spelling p.binding) ps env' more →
    ElaboratesParams env (p :: ps) env' (redeclaration env p.ident ++ own ++ more)

theorem elaborates_checkParams {ps : List Param} {u : Unit} (h : (checkParams ps).Ends k u k' errors) :
    ∃ env', ElaboratesParams k.env ps env' errors ∧ k' = { k with env := env' } ∧ env'.outer = k.env.outer := by
  induction ps generalizing k errors with
  | nil =>
    obtain ⟨-, rfl, rfl⟩ := ends_pure.1 h
    exact ⟨_, .nil, rfl, rfl⟩
  | cons p ps ih =>
    simp only [checkParams, checkParam, ends_bind, ends_declare, ends_reportOption] at h
    obtain ⟨_, _, _, more, rfl, ⟨_, _, _, own, rfl, ⟨rfl, rfl⟩, rfl, rfl⟩, hrest⟩ := h
    obtain ⟨env', hmore, rfl, houter⟩ := ih hrest
    refine ⟨env', .cons ?_ hmore, rfl, houter⟩
    intro x hx
    obtain ⟨f, hf, rfl⟩ := List.mem_map.1 hx
    exact nameless_voidFault (Option.mem_toList.1 hf)

/-- What the check of a function makes of it. -/
inductive ElaboratesFunction (env : Env) (n : Nat) (f : Function) : Function → Nat → List Error → Prop
  | mk {env₁ env₂ : Env} {decls' : List VarDecl} {stmts' : List Stmt} {hasReturn : Bool} {n₁ n' : Nat}
    {first errors more own : List Error} :
    ElaboratesParams (env.insert f.ident.spelling f.binding).openScope f.params env₁ first →
    ElaboratesVars env₁ n f.body.decls decls' env₂ n₁ errors → ElaboratesStmts env₂ n₁ f.body.stmts stmts' n' more →
    Nameless own → ElaboratesFunction env n f { f with body := ⟨f.body.info, decls', stmts'⟩, hasReturn } n'
      (redeclaration env f.ident ++ first ++ errors ++ more ++ own)

theorem elaborates_checkFunction {f f' : Function} (h : (checkFunction options f).Ends k f' k' errors) :
    ∃ n', ElaboratesFunction k.env k.nextExpr f f' n' errors ∧
      k' = { k with env := k.env.insert f.ident.spelling f.binding, nextExpr := n' } := by
  unfold checkFunction checkBody at h
  simp only [ends_bind, ends_declare, ends_openScope, ends_get, ends_modify, ends_reportOption, ends_closeScope,
    ends_pure] at h
  obtain ⟨_, _, _, _, rfl, ⟨rfl, rfl⟩, _, _, _, _, rfl, ⟨rfl, rfl⟩, _, _, _, _, rfl, ⟨rfl, rfl, rfl⟩, h⟩ := h
  obtain ⟨_, _, _, _, rfl, ⟨rfl, rfl⟩, _, _, first, _, rfl, hparams, h⟩ := h
  obtain ⟨env₁, hp, rfl, houter⟩ := elaborates_checkParams hparams
  obtain ⟨_, _, _, _, rfl, ⟨decls', k₁, second, _, rfl, hdecls, stmts', _, third, _, rfl, hstmts, rfl, rfl, rfl⟩,
    h⟩ := h
  obtain ⟨hvars, hk₁⟩ := elaborates_checkVarDecls hdecls
  obtain ⟨n', hs, rfl⟩ := elaborates_checkStmts hstmts
  obtain ⟨_, _, own, _, rfl, ⟨rfl, rfl⟩, _, _, _, _, rfl, ⟨rfl, rfl⟩, _, _, _, _, rfl, ⟨rfl, rfl⟩, rfl, rfl, rfl⟩ := h
  have hreturn (hasReturn : Bool) : Nameless ((missingReturn? options f.ty hasReturn).toList.map (⟨·, f.span⟩)) := by
    unfold missingReturn?
    split_ifs <;> simp [Fault.isOfName]
  refine ⟨n', ?_, ?_⟩
  · have hfunction (hasReturn : Bool) : ElaboratesFunction k.env k.nextExpr f
        { f with body := ⟨f.body.info, decls', stmts'⟩, hasReturn } n' _ := .mk hp hvars hs (hreturn hasReturn)
    simpa using hfunction _
  · -- the scope that is closed at the end is the one that was opened for the parameters
    rw [closeScope_of_outer (hvars.outer.trans houter), hk₁]

/-- Declarations outside all functions are checked one after another. -/
inductive ElaboratesTops : Env → Nat → List TopDecl → List TopDecl → Nat → List Error → Prop
  | nil {env : Env} {n : Nat} : ElaboratesTops env n [] [] n []
  | func {env : Env} {n n₁ n' : Nat} {f f' : Function} {ds ds' : List TopDecl} {errors more : List Error} :
    ElaboratesFunction env n f f' n₁ errors →
    ElaboratesTops (env.insert f.ident.spelling f.binding) n₁ ds ds' n' more →
    ElaboratesTops env n (.func f :: ds) (.func f' :: ds') n' (errors ++ more)
  | var {env : Env} {n n₁ n' : Nat} {d d' : VarDecl} {ds ds' : List TopDecl} {own more : List Error} :
    ElaboratesInit (env.insert d.ident.spelling d.binding) n d d' n₁ own →
    ElaboratesTops (env.insert d.ident.spelling d'.binding) n₁ ds ds' n' more →
    ElaboratesTops env n (.var d :: ds) (.var d' :: ds') n' (redeclaration env d.ident ++ own ++ more)

theorem elaborates_checkTopDecls {ds ds' : List TopDecl} (h : (checkTopDecls options ds).Ends k ds' k' errors) :
    ElaboratesTops k.env k.nextExpr ds ds' k'.nextExpr errors := by
  induction ds generalizing k ds' errors with
  | nil =>
    obtain ⟨rfl, rfl, rfl⟩ := ends_pure.1 h
    exact .nil
  | cons d ds ih =>
    simp only [checkTopDecls, ends_bind, ends_pure] at h
    obtain ⟨d', k₁, first, _, rfl, hd, ds', _, more, _, rfl, hds, rfl, rfl, rfl⟩ := h
    have hrest := ih hds
    rw [List.append_nil]
    cases d with
    | func f =>
      obtain ⟨f', hcheck, rfl⟩ := ends_map.1 hd
      obtain ⟨n', hf, rfl⟩ := elaborates_checkFunction hcheck
      exact .func hf hrest
    | var d =>
      obtain ⟨d', hcheck, rfl⟩ := ends_map.1 hd
      obtain ⟨n', own, hinit, rfl, rfl⟩ := elaborates_checkVarDecl hcheck
      exact .var hinit hrest

/-- A check ends with the declarations, and reports last what is wrong with `main`, as it is found behind them. -/
theorem check_eq (options : Options) (p : Program) :
    let o := checkTopDecls options p.decls (.initial p)
    check options p = (⟨o.value, p.span, p.predeclared ++ Library.prototypesFor p⟩,
      o.errors ++ (mainFault? o.state.env).toList.map (⟨·, p.span⟩)) := by
  intro o
  have h : (checkDecls options p).Ends (.initial p) o.value o.state _ := ends_bind.2 ⟨_, o.state, o.errors, _, rfl, rfl,
    ends_bind.2 ⟨_, _, _, _, rfl, ends_get.2 ⟨rfl, rfl, rfl⟩, ends_bind.2 ⟨(), _, _, _, rfl,
      ends_reportOption.2 ⟨rfl, rfl⟩, ends_pure.2 ⟨rfl, rfl, rfl⟩⟩⟩⟩
  rw [check, h, List.nil_append, List.append_nil]
  rfl

/-- What the check of a program makes of it and reports: beside the errors of its declarations, whether
there is a `main`. -/
theorem check_elaborates (options : Options) (p : Program) : ∃ ds' n' errors own,
    ElaboratesTops (Checker.initial p).env p.exprCount p.decls ds' n' errors ∧ Nameless own ∧
      check options p = (⟨ds', p.span, p.predeclared ++ Library.prototypesFor p⟩, errors ++ own) := by
  refine ⟨_, _, _, _, elaborates_checkTopDecls (ends (checkTopDecls options p.decls) (.initial p)), ?_,
    check_eq options p⟩
  intro x hx
  obtain ⟨f, hf, rfl⟩ := List.mem_map.1 hx
  rw [Option.mem_toList] at hf
  unfold mainFault? at hf
  split at hf
  · split_ifs at hf
    cases hf
    rfl
  · cases hf
    rfl

end VCLang.Typing
