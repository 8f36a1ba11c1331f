/-
What a check makes of an expression, whatever it reports: a relation with one constructor for each form and
each way the form can end. The parts of a form stand in it as they are checked; of the errors that a form
adds to those of its parts only the ones about names are told apart.
-/
import VCLang.Proofs.Tree.Source
import VCLang.Proofs.Typing.Rules
import VCLang.Proofs.Typing.Runs
namespace VCLang

namespace Check

variable {σ α β : Type} {s s' s'' : σ} {errors : List Error}

/-- A check ends with a value, a state and what it has reported. -/
def Ends (m : Check σ α) (s : σ) (a : α) (s' : σ) (errors : List Error) : Prop := m s = ⟨a, s', errors⟩

theorem ends (m : Check σ α) (s : σ) : m.Ends s (m s).value (m s).state (m s).errors := rfl

@[simp] theorem ends_pure {a b : α} : (pure a : Check σ α).Ends s b s' errors ↔ b = a ∧ s' = s ∧ errors = [] := by
  unfold Ends
  rw [pure_apply, Outcome.mk.injEq]
  constructor
  · rintro ⟨rfl, rfl, rfl⟩
    exact ⟨rfl, rfl, rfl⟩
  · rintro ⟨rfl, rfl, rfl⟩
    exact ⟨rfl, rfl, rfl⟩

/-- What a sequence reports is what its parts report, in order. -/
@[simp] theorem ends_bind {m : Check σ α} {f : α → Check σ β} {b : β} :
    (m >>= f).Ends s b s'' errors ↔ ∃ a s' first rest, errors = first ++ rest ∧ m.Ends s a s' first ∧
      (f a).Ends s' b s'' rest := by
  unfold Ends
  rw [bind_apply]
  rcases hm : m s with ⟨a, s', first⟩
  constructor
  · intro h
    rw [Outcome.mk.injEq] at h
    obtain ⟨rfl, rfl, rfl⟩ := h
    exact ⟨a, s', first, _, rfl, rfl, rfl⟩
  · rintro ⟨a', s₁, first', rest, rfl, ha, hf⟩
    cases ha
    simp only [hf]

@[simp] theorem ends_map {m : Check σ α} {f : α → β} {b : β} :
    (f <$> m).Ends s b s' errors ↔ ∃ a, m.Ends s a s' errors ∧ b = f a := by
  rw [map_eq_pure_bind, ends_bind]
  constructor
  · rintro ⟨a, s₁, first, rest, rfl, hm, hf⟩
    obtain ⟨rfl, rfl, rfl⟩ := ends_pure.1 hf
    rw [List.append_nil]
    exact ⟨a, hm, rfl⟩
  · rintro ⟨a, hm, rfl⟩
    exact ⟨a, s', errors, [], (List.append_nil _).symm, hm, ends_pure.2 ⟨rfl, rfl, rfl⟩⟩

@[simp] theorem ends_report {f : Fault} {span : Span} {u : Unit} :
    (report f span : Check σ Unit).Ends s u s' errors ↔ s' = s ∧ errors = [⟨f, span⟩] := by
  unfold Ends
  rw [report_apply, Outcome.mk.injEq]
  constructor
  · rintro ⟨-, rfl, rfl⟩
    exact ⟨rfl, rfl⟩
  · rintro ⟨rfl, rfl⟩
    exact ⟨rfl, rfl, rfl⟩

@[simp] theorem ends_reportOption {f : Option Fault} {span : Span} {u : Unit} :
    (reportOption f span : Check σ Unit).Ends s u s' errors ↔ s' = s ∧ errors = f.toList.map (⟨·, span⟩) := by
  cases f with
  | none => simp [reportOption]
  | some f => simp [reportOption]

@[simp] theorem ends_get {a : σ} : (get : Check σ σ).Ends s a s' errors ↔ a = s ∧ s' = s ∧ errors = [] := by
  unfold Ends
  rw [get_apply, Outcome.mk.injEq]
  constructor
  · rintro ⟨rfl, rfl, rfl⟩
    exact ⟨rfl, rfl, rfl⟩
  · rintro ⟨rfl, rfl, rfl⟩
    exact ⟨rfl, rfl, rfl⟩

@[simp] theorem ends_modify {f : σ → σ} {u : Unit} : (modify f).Ends s u s' errors ↔ s' = f s ∧ errors = [] := by
  unfold Ends
  rw [modify_apply, Outcome.mk.injEq]
  constructor
  · rintro ⟨-, rfl, rfl⟩
    exact ⟨rfl, rfl⟩
  · rintro ⟨rfl, rfl⟩
    exact ⟨rfl, rfl, rfl⟩

end Check

/-- Whether a fault is about what a name stands for: it has no declaration, it has two in one scope, or it
is `main`, which cannot be called. -/
def Fault.isOfName : Fault → Bool
  | undeclared _ | redeclared _ | mainCalled => true
  | _ => false

/-- None of some errors is about what a name stands for. -/
def Nameless (errors : List Error) : Prop := ∀ x ∈ errors, x.fault.isOfName = false

@[simp] theorem nameless_nil : Nameless [] := by simp [Nameless]

@[simp] theorem nameless_singleton {x : Error} : Nameless [x] ↔ x.fault.isOfName = false := by simp [Nameless]

@[simp] theorem nameless_append {xs ys : List Error} : Nameless (xs ++ ys) ↔ Nameless xs ∧ Nameless ys :=
  List.forall_mem_append

namespace Typing

open Static Check

variable {env : Env} {whole : Bool} {info : ExprInfo} {ident : Ident} {e e' : Expr} {n n' : Nat}
  {errors : List Error}

/-! ## Parts of forms -/

/-- A name is used at a span: it is bound as the scopes say, and without a declaration its type is `error`. -/
inductive Uses (env : Env) (ident : Ident) (span : Span) : Ident → Ty → List Error → Prop
  | unbound : env.retrieve ident.spelling = none →
    Uses env ident span ident .error [⟨.undeclared ident.spelling, span⟩]
  | bound {b : Binding} {t : Ty} {own : List Error} : env.retrieve ident.spelling = some b → Nameless own →
    Uses env ident span (ident.bindTo b.decl) t own

/-- The conversion of an `int`, or of nothing. -/
inductive Converted (n : Nat) (e : Expr) : Expr → Nat → Prop
  | keep : Converted n e e n
  | widen : e.type = .int → Converted n e (.intToFloat ⟨⟨n⟩, e.span, some .float⟩ e) (n + 1)

theorem Widened.converted {needed : Bool} (h : Widened n e needed e' n') (hint : needed = true → e.type = .int) :
    Converted n e e' n' := by
  cases h with
  | keep => exact .keep
  | widen => exact .widen (hint rfl)

@[simp] theorem ends_widenIf {needed : Bool} :
    (widenIf needed e).Ends n e' n' errors ↔ Widened n e needed e' n' ∧ errors = [] := by
  constructor
  · intro h
    obtain rfl : errors = [] := by
      cases needed <;> cases h <;> rfl
    exact ⟨runs_widenIf.1 h, rfl⟩
  · rintro ⟨h, rfl⟩
    exact runs_widenIf.2 h

/-- What fits is converted where it is an `int`, and what does not stays as it is. -/
theorem ends_settle {ruling : Ruling Bool} {span : Span} (h : (settle ruling span e).Ends n e' n' errors)
    (hint : ruling = .accept true → e.type = .int) :
    Converted n e e' n' ∧ errors = ruling.fault?.toList.map (⟨·, span⟩) := by
  cases ruling with
  | accept needed =>
    obtain ⟨hw, rfl⟩ := ends_widenIf.1 h
    exact ⟨hw.converted fun hneeded => hint (by rw [hneeded]), rfl⟩
  | reject f =>
    cases h
    exact ⟨.keep, rfl⟩
  | silent =>
    cases h
    exact ⟨.keep, rfl⟩

theorem int_of_needsIntToFloat {target source : Ty} (h : target.needsIntToFloat source = true) : source = .int :=
  (needsIntToFloat_iff.1 h).2

theorem int_of_storeRuling {f : Fault} {target source : Ty} (h : storeRuling f target source = .accept true) :
    source = .int := by
  unfold storeRuling at h
  split_ifs at h
  exact int_of_needsIntToFloat (Ruling.accept.inj h)

theorem int_of_argumentRuling {param source : Ty} (h : argumentRuling param source = .accept true) :
    source = .int := by
  unfold argumentRuling at h
  split_ifs at h
  exact int_of_needsIntToFloat (Ruling.accept.inj h)

/-- What is assigned is brought to the type of the target, unless one of the two is wrong already. -/
theorem assignRuling_accept {t s : Ty} {name : String} {needed : Bool} (h : assignRuling t s name = .accept needed) :
    (needed = true → s = .int) ∧ (t ≠ .error → s.widened needed = t ∨ s = .error) := by
  unfold assignRuling storeRuling at h
  split_ifs at h with harray harray' hassign
  cases h
  refine ⟨int_of_needsIntToFloat, ?_⟩
  cases t <;> cases s <;> simp_all [Ty.assignable, Ty.needsIntToFloat, Ty.isFloat, Ty.isInt, Ty.widened, Ty.isArray]

/-- What is stored where it does not fit is reported, and not for a name if the fault is not one of a name. -/
theorem nameless_storeRuling {f : Fault} (hf : f.isOfName = false) (target source : Ty) (span : Span) :
    Nameless ((storeRuling f target source).fault?.toList.map (⟨·, span⟩)) := by
  unfold storeRuling
  split_ifs <;> simp [Ruling.fault?, hf]

theorem nameless_argumentRuling (param source : Ty) (span : Span) :
    Nameless ((argumentRuling param source).fault?.toList.map (⟨·, span⟩)) := by
  unfold argumentRuling
  split_ifs <;> simp [Ruling.fault?, Fault.isOfName]

/-! ## Expressions -/

mutual

/-- What the check of an expression makes of it, with the number of the next new expression before and
after it and what it reports. -/
inductive Elaborates (env : Env) : Nat → Expr → Expr → Nat → List Error → Prop
  | literal {info : ExprInfo} {value : Literal} {n : Nat} :
    Elaborates env n (.literal info value) (.literal (info.typed (literalType value)) value) n []
  | var {info : ExprInfo} {ident ident' : Ident} {t : Ty} {n : Nat} {own : List Error} :
    Uses env ident info.span ident' t own → Elaborates env n (.var info ident) (.var (info.typed t) ident') n own
  | arrayAccess {info : ExprInfo} {ident ident' : Ident} {index index' : Expr} {t : Ty} {n n' : Nat}
    {errors own : List Error} : Elaborates env n index index' n' errors → Uses env ident info.span ident' t own →
    Elaborates env n (.arrayAccess info ident index) (.arrayAccess (info.typed t) ident' index') n' (errors ++ own)
  | mainCall {info : ExprInfo} {ident : Ident} {args args' : List Expr} {n n' : Nat} {errors : List Error} :
    ident.spelling = "main" → ElaboratesAll env n args args' n' errors →
    Elaborates env n (.call info ident args) (.call (info.typed .error) ident args') n'
      (⟨.mainCalled, info.span⟩ :: errors)
  | call {info : ExprInfo} {ident ident' : Ident} {args args' : List Expr} {t : Ty} {n n' : Nat}
    {first errors own : List Error} : ident.spelling ≠ "main" → Uses env ident ident.span ident' t first →
    ElaboratesAll env n args args' n' errors → Nameless own →
    Elaborates env n (.call info ident args) (.call (info.typed t) ident' args') n' (first ++ errors ++ own)
  | unary {info : ExprInfo} {op : Operator} {operand operand' : Expr} {t : Ty} {n n' : Nat} {errors : List Error} :
    Elaborates env n operand operand' n' errors → UnaryOp op.spelling operand'.type t →
    Elaborates env n (.unary info op operand) (.unary (info.typed t) (op.tagged (.of operand'.type)) operand') n'
      errors
  | unaryError {info : ExprInfo} {op : Operator} {operand operand' : Expr} {n n' : Nat} {errors own : List Error} :
    Elaborates env n operand operand' n' errors → Nameless own →
    Elaborates env n (.unary info op operand) (.unary (info.typed .error) op operand') n' (errors ++ own)
  | binary {info : ExprInfo} {op : Operator} {left left' left'' right right' right'' : Expr} {t : Ty} {u : Unified}
    {n n₁ n₂ n₃ n' : Nat} {errors more : List Error} : Elaborates env n left left' n₁ errors →
    Elaborates env n₁ right right' n₂ more → BinaryOp op.spelling left'.type right'.type t →
    u = .of left'.type right'.type → Widened n₂ left' u.widenLeft left'' n₃ →
    Widened n₃ right' u.widenRight right'' n' →
    Elaborates env n (.binary info op left right) (.binary (info.typed t) (op.tagged u.tag) left'' right'') n'
      (errors ++ more)
  | binaryError {info : ExprInfo} {op : Operator} {left left' right right' : Expr} {n n₁ n' : Nat}
    {errors more own : List Error} : Elaborates env n left left' n₁ errors →
    Elaborates env n₁ right right' n' more → Nameless own →
    Elaborates env n (.binary info op left right) (.binary (info.typed .error) op left' right') n'
      (errors ++ more ++ own)
  | assign {info : ExprInfo} {target target' value value' value'' : Expr} {needed : Bool} {n n₁ n₂ n' : Nat}
    {errors more : List Error} : Elaborates env n target target' n₁ errors →
    Elaborates env n₁ value value' n₂ more →
    assignRuling target'.type value'.type value'.name = .accept needed → Widened n₂ value' needed value'' n' →
    Elaborates env n (.assign info target value) (.assign (info.typed target'.type) target' value'') n'
      (errors ++ more)
  | assignError {info : ExprInfo} {target target' value value' : Expr} {n n₁ n' : Nat}
    {first errors more own : List Error} : Nameless first → Elaborates env n target target' n₁ errors →
    Elaborates env n₁ value value' n' more → Nameless own →
    Elaborates env n (.assign info target value) (.assign (info.typed .error) target' value') n'
      (first ++ errors ++ more ++ own)
  | initList {info : ExprInfo} {elements elements' : List Expr} {n n' : Nat} {errors : List Error} :
    ElaboratesAll env n elements elements' n' errors →
    Elaborates env n (.initList info elements) (.initList (info.typed .error) elements') n' errors
  | intToFloat {info : ExprInfo} {operand operand' : Expr} {n n' : Nat} {errors : List Error} :
    Elaborates env n operand operand' n' errors →
    Elaborates env n (.intToFloat info operand) (.intToFloat (info.typed .float) operand') n' errors

/-- Expressions are checked one after another, and each is converted where that is asked for. -/
inductive ElaboratesAll (env : Env) : Nat → List Expr → List Expr → Nat → List Error → Prop
  | nil {n : Nat} : ElaboratesAll env n [] [] n []
  | cons {e checked e' : Expr} {es es' : List Expr} {n n₁ n₂ n' : Nat} {errors own more : List Error} :
    Elaborates env n e checked n₁ errors → Converted n₁ checked e' n₂ → Nameless own →
    ElaboratesAll env n₂ es es' n' more → ElaboratesAll env n (e :: es) (e' :: es') n' (errors ++ own ++ more)

end

/-- The check of an expression ends as the relation says. -/
def ElaboratesAs (env : Env) (e : Expr) : Prop :=
  ∀ ⦃whole n e' n' errors⦄, (checkExpr env whole e).Ends n e' n' errors → Elaborates env n e e' n' errors

theorem elaboratesAll_checkAll {es es' : List Expr} (hes : ∀ e ∈ es, ElaboratesAs env e)
    (h : (checkAll env es).Ends n es' n' errors) : ElaboratesAll env n es es' n' errors := by
  induction es generalizing n es' errors with
  | nil =>
    obtain ⟨rfl, rfl, rfl⟩ := ends_pure.1 h
    exact .nil
  | cons e es ih =>
    simp only [checkAll, ends_bind, ends_pure] at h
    obtain ⟨e', n₁, errors, _, rfl, he, es', n₂, more, _, rfl, hrest, rfl, rfl, rfl⟩ := h
    have htail := ih (fun e he => hes e (by simp [he])) hrest
    have hall := ElaboratesAll.cons (hes e (by simp) he) .keep nameless_nil htail
    simpa using hall

theorem elaboratesAll_checkArgs {params : List Ty} {args args' : List Expr} (hargs : ∀ e ∈ args, ElaboratesAs env e)
    (h : (checkArgs env params args).Ends n args' n' errors) : ElaboratesAll env n args args' n' errors := by
  induction args generalizing params n args' errors with
  | nil =>
    rw [checkArgs] at h
    obtain ⟨rfl, rfl, rfl⟩ := ends_pure.1 h
    exact .nil
  | cons arg args ih =>
    have hfirst : ElaboratesAs env arg := hargs arg (by simp)
    have hmore : ∀ e ∈ args, ElaboratesAs env e := fun e he => hargs e (by simp [he])
    cases params with
    | nil =>
      -- the first argument that is too many is reported, the rest are only checked
      simp only [checkArgs, ends_bind, ends_report, ends_pure] at h
      obtain ⟨arg', n₁, errors, _, rfl, harg, _, _, _, _, rfl, ⟨rfl, rfl⟩, args', n₂, more, _, rfl, hrest, rfl, rfl,
        rfl⟩ := h
      have hown : Nameless [⟨.tooManyArguments, arg'.span⟩] := by simp [Fault.isOfName]
      have hall := ElaboratesAll.cons (hfirst harg) .keep hown (elaboratesAll_checkAll hmore hrest)
      simpa using hall
    | cons param params =>
      simp only [checkArgs, ends_bind, ends_pure] at h
      obtain ⟨checked, n₁, errors, _, rfl, harg, arg', n₂, own, _, rfl, hsettle, args', n₃, more, _, rfl, hrest, rfl,
        rfl, rfl⟩ := h
      obtain ⟨hconverted, rfl⟩ := ends_settle hsettle int_of_argumentRuling
      have hall := ElaboratesAll.cons (hfirst harg) hconverted
        (nameless_argumentRuling param checked.type checked.span) (ih hmore hrest)
      simpa using hall

theorem elaborates_checkVar (h : (checkVar env whole info ident).Ends n e' n' errors) :
    ∃ ident' t, Uses env ident info.span ident' t errors ∧ e' = .var (info.typed t) ident' ∧ n' = n := by
  unfold checkVar at h
  rcases hb : env.retrieve ident.spelling with _ | ⟨d, t | ⟨ret, params⟩⟩ <;> rw [hb] at h
  · cases h
    exact ⟨_, _, .unbound hb, rfl, rfl⟩
  · cases h
    exact ⟨_, _, .bound hb nameless_nil, rfl, rfl⟩
  · cases whole <;> cases h
    · exact ⟨_, _, .bound hb (by simp [Fault.isOfName]), rfl, rfl⟩
    · exact ⟨_, _, .bound hb nameless_nil, rfl, rfl⟩

theorem elaborates_checkAccess {index : Expr} (h : (checkAccess env info ident index).Ends n e' n' errors) :
    ∃ ident' t, Uses env ident info.span ident' t errors ∧ e' = .arrayAccess (info.typed t) ident' index ∧
      n' = n := by
  unfold checkAccess at h
  rcases hb : env.retrieve ident.spelling with _ | b <;> rw [hb] at h
  · cases h
    exact ⟨_, _, .unbound hb, rfl, rfl⟩
  · dsimp only at h
    split at h
    · cases h
      exact ⟨_, _, .bound hb (by simp [Fault.isOfName]), rfl, rfl⟩
    · split at h
      · cases h
        exact ⟨_, _, .bound hb nameless_nil, rfl, rfl⟩
      · rename_i f hf
        cases h
        refine ⟨_, _, .bound hb ?_, rfl, rfl⟩
        unfold subscriptFault? at hf
        split_ifs at hf
        cases hf
        simp [Fault.isOfName]

theorem elaborates_call {args : List Expr} (hargs : ∀ e ∈ args, ElaboratesAs env e) :
    ElaboratesAs env (.call info ident args) := by
  intro whole n e' n' errors h
  rw [checkExpr] at h
  split_ifs at h with hmain
  · simp only [ends_bind, ends_report, ends_pure] at h
    obtain ⟨_, _, _, _, rfl, ⟨rfl, rfl⟩, args', n₁, errors, _, rfl, hall, rfl, rfl, rfl⟩ := h
    rw [List.append_nil]
    exact .mainCall hmain (elaboratesAll_checkAll hargs hall)
  -- what is reported of the name stands in front of what is reported of the arguments
  have hcall {ident' : Ident} {t : Ty} {args' : List Expr} {first errors own : List Error}
      (huse : Uses env ident ident.span ident' t first) (hall : ElaboratesAll env n args args' n' errors)
      (hown : Nameless own) : Elaborates env n (.call info ident args) (.call (info.typed t) ident' args') n'
        (first ++ errors ++ own) := .call hmain huse hall hown
  rcases hb : env.retrieve ident.spelling with _ | ⟨d, t | ⟨ret, params⟩⟩ <;> rw [hb] at h
  · simp only [ends_bind, ends_report, ends_pure] at h
    obtain ⟨_, _, _, _, rfl, ⟨rfl, rfl⟩, args', n₁, errors, _, rfl, hall, rfl, rfl, rfl⟩ := h
    have h := hcall (.unbound hb) (elaboratesAll_checkAll hargs hall) nameless_nil
    simpa using h
  · simp only [ends_bind, ends_report, ends_pure] at h
    obtain ⟨_, _, _, _, rfl, ⟨rfl, rfl⟩, args', n₁, errors, _, rfl, hall, rfl, rfl, rfl⟩ := h
    have hown : Nameless [⟨.notFunction, info.span⟩] := by simp [Fault.isOfName]
    have h := hcall (.bound (t := .error) hb hown) (elaboratesAll_checkAll hargs hall) nameless_nil
    simpa using h
  · rw [ends_bind] at h
    obtain ⟨args', n₁, errors, _, rfl, hall, h⟩ := h
    have huse : Uses env ident ident.span (ident.bindTo d) ret [] := .bound hb nameless_nil
    split_ifs at h
    · simp only [ends_bind, ends_report, ends_pure] at h
      obtain ⟨_, _, _, _, rfl, ⟨rfl, rfl⟩, rfl, rfl, rfl⟩ := h
      have hown : Nameless [⟨.tooFewArguments, info.span⟩] := by simp [Fault.isOfName]
      have h := hcall huse (elaboratesAll_checkArgs hargs hall) hown
      simpa using h
    · obtain ⟨rfl, rfl, rfl⟩ := ends_pure.1 h
      exact hcall huse (elaboratesAll_checkArgs hargs hall) nameless_nil

theorem elaborates_finishUnary {op : Operator} {operand operand' : Expr} {n₁ : Nat} {own : List Error}
    (ho : Elaborates env n operand operand' n₁ errors) (h : (finishUnary info op operand').Ends n₁ e' n' own) :
    Elaborates env n (.unary info op operand) e' n' (errors ++ own) := by
  unfold finishUnary at h
  split at h
  · rename_i hr
    obtain ⟨hop, rfl⟩ := unaryRuling_iff.1 hr
    obtain ⟨rfl, rfl, rfl⟩ := ends_pure.1 h
    rw [List.append_nil]
    exact .unary ho hop
  · rename_i f hr
    cases h
    refine .unaryError ho ?_
    unfold unaryRuling at hr
    split at hr <;> (try split_ifs at hr) <;> cases hr <;> simp [Fault.isOfName]
  · obtain ⟨rfl, rfl, rfl⟩ := ends_pure.1 h
    exact .unaryError ho nameless_nil

/-- What a binary operator is reported for is not about names, although an array is named in it. -/
theorem nameless_binaryRuling {op : String} {a b : Ty} {leftName rightName : String} {f : Fault}
    (h : binaryRuling op a b leftName rightName = .reject f) : f.isOfName = false := by
  unfold binaryRuling at h
  split_ifs at h <;> try (cases h; rfl)
  split at h <;> cases h
  rfl

theorem elaborates_finishBinary {op : Operator} {left left' right right' : Expr} {n₁ n₂ : Nat} {more own : List Error}
    (hl : Elaborates env n left left' n₁ errors) (hr : Elaborates env n₁ right right' n₂ more)
    (h : (finishBinary info op left' right').Ends n₂ e' n' own) :
    Elaborates env n (.binary info op left right) e' n' (errors ++ more ++ own) := by
  unfold finishBinary at h
  split at h
  · rename_i hruling
    simp only [ends_bind, ends_widenIf, ends_pure] at h
    obtain ⟨left'', n₃, _, _, rfl, ⟨hwl, rfl⟩, right'', n₄, _, _, rfl, ⟨hwr, rfl⟩, rfl, rfl, rfl⟩ := h
    obtain ⟨hop, hu⟩ := binaryOp_of_ruling hruling
    have hbinary : Elaborates env n (.binary info op left right) _ n' _ := .binary hl hr hop hu hwl hwr
    simpa using hbinary
  · rename_i f hruling
    cases h
    exact .binaryError hl hr (by simpa using nameless_binaryRuling hruling)
  · obtain ⟨rfl, rfl, rfl⟩ := ends_pure.1 h
    exact .binaryError hl hr nameless_nil

theorem elaborates_finishAssign {target target' value value' : Expr} {n₁ n₂ : Nat} {more own : List Error}
    (ht : Elaborates env n target target' n₁ errors) (hv : Elaborates env n₁ value value' n₂ more)
    (h : (finishAssign info target' value').Ends n₂ e' n' own) :
    Elaborates env n (.assign info target value) e' n' (errors ++ more ++ own) := by
  unfold finishAssign at h
  have herror {own : List Error} (hown : Nameless own) : Elaborates env n (.assign info target value) _ n₂
    ([] ++ errors ++ more ++ own) := .assignError nameless_nil ht hv hown
  split at h
  · rename_i hruling
    simp only [ends_bind, ends_widenIf, ends_pure] at h
    obtain ⟨value'', n₃, _, _, rfl, ⟨hw, rfl⟩, rfl, rfl, rfl⟩ := h
    have hassign : Elaborates env n (.assign info target value) _ n' _ := .assign ht hv hruling hw
    simpa using hassign
  · rename_i f hruling
    cases h
    refine herror ?_
    unfold assignRuling storeRuling at hruling
    split_ifs at hruling <;> cases hruling <;> simp [Fault.isOfName]
  · obtain ⟨rfl, rfl, rfl⟩ := ends_pure.1 h
    exact herror nameless_nil

theorem elaborates_assign {target value : Expr} (iht : ElaboratesAs env target) (ihv : ElaboratesAs env value) :
    ElaboratesAs env (.assign info target value) := by
  intro whole n e' n' errors h
  rw [checkExpr] at h
  split_ifs at h
  · simp only [ends_bind] at h
    obtain ⟨target', n₁, errors, _, rfl, ht, value', n₂, more, own, rfl, hv, h⟩ := h
    rw [← List.append_assoc]
    exact elaborates_finishAssign (iht ht) (ihv hv) h
  · simp only [ends_bind, ends_report, ends_pure] at h
    obtain ⟨_, _, _, _, rfl, ⟨rfl, rfl⟩, target', n₁, errors, _, rfl, ht, value', n₂, more, _, rfl, hv, rfl, rfl,
      rfl⟩ := h
    have hfirst : Nameless [⟨.invalidLvalue, info.span⟩] := by simp [Fault.isOfName]
    have herror : Elaborates env _ (.assign info target value) _ _ _ :=
      .assignError hfirst (iht ht) (ihv hv) nameless_nil
    simpa using herror

theorem elaboratesAs (env : Env) (e : Expr) : ElaboratesAs env e := by
  induction e using Expr.induct with
  | binary info op left right ihl ihr =>
    intro whole n e' n' errors h
    simp only [checkExpr, ends_bind] at h
    obtain ⟨left', n₁, errors, _, rfl, hl, right', n₂, more, own, rfl, hr, h⟩ := h
    rw [← List.append_assoc]
    exact elaborates_finishBinary (ihl hl) (ihr hr) h
  | unary info op operand ih =>
    intro whole n e' n' errors h
    simp only [checkExpr, ends_bind] at h
    obtain ⟨operand', n₁, errors, own, rfl, ho, h⟩ := h
    exact elaborates_finishUnary (ih ho) h
  | assign info target value iht ihv => exact elaborates_assign iht ihv
  | var info ident =>
    intro whole n e' n' errors h
    rw [checkExpr] at h
    obtain ⟨ident', t, huse, rfl, rfl⟩ := elaborates_checkVar h
    exact .var huse
  | arrayAccess info ident index ih =>
    intro whole n e' n' errors h
    simp only [checkExpr, ends_bind] at h
    obtain ⟨index', n₁, errors, own, rfl, hindex, h⟩ := h
    obtain ⟨ident', t, huse, rfl, rfl⟩ := elaborates_checkAccess h
    exact .arrayAccess (ih hindex) huse
  | call info ident args ih => exact elaborates_call ih
  | initList info elements ih =>
    intro whole n e' n' errors h
    simp only [checkExpr, ends_bind, ends_pure] at h
    obtain ⟨elements', n₁, errors, _, rfl, helements, rfl, rfl, rfl⟩ := h
    rw [List.append_nil]
    exact .initList (elaboratesAll_checkAll ih helements)
  | literal info value =>
    intro whole n e' n' errors h
    rw [checkExpr] at h
    obtain ⟨rfl, rfl, rfl⟩ := ends_pure.1 h
    exact .literal
  | intToFloat info operand ih =>
    intro whole n e' n' errors h
    simp only [checkExpr, ends_bind, ends_pure] at h
    obtain ⟨operand', n₁, errors, _, rfl, ho, rfl, rfl, rfl⟩ := h
    rw [List.append_nil]
    exact .intToFloat (ih ho)

theorem elaborates_checkExpr (h : (checkExpr env whole e).Ends n e' n' errors) : Elaborates env n e e' n' errors :=
  elaboratesAs env e h

theorem elaboratesAll_checkElements {element : Ty} {es es' : List Expr}
    (h : (checkElements env element es).Ends n es' n' errors) : ElaboratesAll env n es es' n' errors := by
  induction es generalizing n es' errors with
  | nil =>
    obtain ⟨rfl, rfl, rfl⟩ := ends_pure.1 h
    exact .nil
  | cons e es ih =>
    simp only [checkElements, ends_bind, ends_pure] at h
    obtain ⟨checked, n₁, errors, _, rfl, he, e', n₂, own, _, rfl, hsettle, es', n₃, more, _, rfl, hes, rfl, rfl,
      rfl⟩ := h
    obtain ⟨hconverted, rfl⟩ := ends_settle hsettle int_of_storeRuling
    have hall := ElaboratesAll.cons (elaborates_checkExpr he) hconverted
      (nameless_storeRuling (f := .wrongInitialiserElement) rfl element checked.type checked.span) (ih hes)
    simpa using hall

end Typing

end VCLang
