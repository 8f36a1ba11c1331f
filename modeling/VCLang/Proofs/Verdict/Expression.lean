/-
One step of the check of an expression. What it adds to the checks of the parts is a verdict on the root, which
depends on the types of the parts alone: the type of the expression, and the errors that are its own.
-/
import VCLang.Proofs.Elaboration.Decoration
import VCLang.Proofs.Span.Check
namespace VCLang

open Typing

/-! ## Verdicts -/

/-- What is said of a construct whose parts are of known types: its type, and what is wrong with it. -/
structure Verdict where
  ty : Ty
  errors : List Error

/-- What is reported of a fault at a span, if there is one. -/
def reported (f : Option Fault) (span : Span) : List Error := f.toList.map (⟨·, span⟩)

@[simp] theorem reported_none (span : Span) : reported none span = [] := rfl

@[simp] theorem reported_some (f : Fault) (span : Span) : reported (some f) span = [⟨f, span⟩] := rfl

/-- The verdict by a rule: what is accepted has a type, what is not is of type `error`. -/
def Ruling.verdict {α : Type} (r : Ruling α) (ty : α → Ty) (span : Span) : Verdict :=
  match r with
  | .accept a => ⟨ty a, []⟩
  | .reject f => ⟨.error, [⟨f, span⟩]⟩
  | .silent => ⟨.error, []⟩

@[simp] theorem Ruling.errors_verdict {α : Type} (r : Ruling α) (ty : α → Ty) (span : Span) :
    (r.verdict ty span).errors = reported r.fault? span := by
  cases r <;> rfl

/-- The rule of the argument at an index. Of the arguments that are too many, the first is wrong. -/
def argumentRulingAt (params : List Ty) (i : Nat) (arg : Ty) : Ruling Bool :=
  match params[i]? with
  | some param => argumentRuling param arg
  | none => if i = params.length then .reject .tooManyArguments else .silent

/-- What is wrong with expressions in a row, each of which is judged by its index and its type. -/
def rowErrors (rule : Nat → Ty → Ruling Bool) (τ : ExprId → Ty) (i : Nat) (es : List Expr) : List Error :=
  (es.zipIdx i).flatMap fun x => reported (rule x.2 (τ x.1.id)).fault? x.1.span

@[simp] theorem rowErrors_nil (rule : Nat → Ty → Ruling Bool) (τ : ExprId → Ty) (i : Nat) :
    rowErrors rule τ i [] = [] := rfl

@[simp] theorem rowErrors_cons (rule : Nat → Ty → Ruling Bool) (τ : ExprId → Ty) (i : Nat) (e : Expr)
    (es : List Expr) : rowErrors rule τ i (e :: es) =
      reported (rule i (τ e.id)).fault? e.span ++ rowErrors rule τ (i + 1) es := by
  rw [rowErrors, List.zipIdx_cons, List.flatMap_cons]
  rfl

/-- What is wrong with the arguments of a call at a span. -/
def argumentErrors (params : List Ty) (args : List Expr) (span : Span) (τ : ExprId → Ty) : List Error :=
  rowErrors (argumentRulingAt params) τ 0 args ++
    if args.length < params.length then [⟨.tooFewArguments, span⟩] else []

/-- The verdict on the root of an expression, where its names stand for what the scopes say and its parts are of
the given types; `whole` says that it is a statement by itself. -/
def Expr.verdict (env : Env) (whole : Bool) (τ : ExprId → Ty) : Expr → Verdict
  | literal _ value => ⟨literalType value, []⟩
  | var info ident =>
    match env.retrieve ident.spelling with
    | none => ⟨.error, [⟨.undeclared ident.spelling, info.span⟩]⟩
    | some b =>
      match b.signature with
      | .var ty => ⟨ty, []⟩
      | .func ret _ => if whole then ⟨ret, []⟩ else ⟨.error, [⟨.notScalar ident.spelling, info.span⟩]⟩
  | arrayAccess info ident index =>
    match env.retrieve ident.spelling with
    | none => ⟨.error, [⟨.undeclared ident.spelling, info.span⟩]⟩
    | some b =>
      match b.signature.element? with
      | none => ⟨.error, [⟨.notArray ident.spelling, info.span⟩]⟩
      | some element =>
        match subscriptFault? (τ index.id) with
        | none => ⟨element, []⟩
        | some f => ⟨.error, [⟨f, index.span⟩]⟩
  | call info ident args =>
    if ident.spelling = "main" then ⟨.error, [⟨.mainCalled, info.span⟩]⟩
    else
      match env.retrieve ident.spelling with
      | none => ⟨.error, [⟨.undeclared ident.spelling, ident.span⟩]⟩
      | some b =>
        match b.signature with
        | .var _ => ⟨.error, [⟨.notFunction, info.span⟩]⟩
        | .func ret params => ⟨ret, argumentErrors params args info.span τ⟩
  | unary info op operand => (unaryRuling op.spelling (τ operand.id)).verdict Prod.fst info.span
  | binary info op left right =>
    (binaryRuling op.spelling (τ left.id) (τ right.id) left.name right.name).verdict Prod.fst info.span
  | assign info target value =>
    if target.isLvalue then
      (assignRuling (τ target.id) (τ value.id) value.name).verdict (fun _ => τ target.id) info.span
    else ⟨.error, [⟨.invalidLvalue, info.span⟩]⟩
  | initList _ _ => ⟨.error, []⟩
  | intToFloat _ _ => ⟨.float, []⟩

namespace Typing

open Check

variable {env : Env} {whole : Bool} {info : ExprInfo} {ident : Ident} {e e' : Expr} {n n' : Nat}
  {errors : List Error} {rule : Nat → Ty → Ruling Bool}

/-! ## The checks of the parts -/

/-- The check of an expression that is part of another construct. -/
structure ExprVisit where
  source : Expr
  start : Nat
  checked : Expr
  stop : Nat
  errors : List Error

namespace ExprVisit

/-- The check ends so, with the names in scope. -/
def Ran (env : Env) (whole : Bool) (v : ExprVisit) : Prop :=
  (checkExpr env whole v.source).Ends v.start v.checked v.stop v.errors

/-- Types say what the check has found. -/
def TypedBy (τ : ExprId → Ty) (v : ExprVisit) : Prop := τ v.source.id = v.checked.type

/-- What is checked ends up in a place as it is, or converted. -/
def Fills (v : ExprVisit) (e : Expr) : Prop := ∃ n m, Converted n v.checked e m

variable {v : ExprVisit}

theorem Ran.elaborates (h : v.Ran env whole) : Elaborates env v.start v.source v.checked v.stop v.errors :=
  elaborates_checkExpr h

theorem Fills.refl (v : ExprVisit) : v.Fills v.checked := ⟨0, 0, .keep⟩

end ExprVisit

/-- A name or a keyword stays what it is. -/
theorem Elaborates.name (h : Elaborates env n e e' n' errors) : e'.name = e.name := by
  cases h with
  | var huse => cases huse <;> rfl
  | arrayAccess _ huse => cases huse <;> rfl
  | call _ huse => cases huse <;> rfl
  | _ => rfl

/-! ## Expressions in a row -/

/-- Expressions are checked one after another, each once; each is judged by a rule when it is checked, before the
next one is, and converted if the rule says so. -/
inductive ChecksRow (env : Env) (rule : Nat → Ty → Ruling Bool) :
    Nat → Nat → List Expr → List Expr → Nat → List Error → Prop
  | nil {i n : Nat} : ChecksRow env rule i n [] [] n []
  | cons {i n n₁ n₂ n' : Nat} {e checked e' : Expr} {es es' : List Expr} {errors own more : List Error} :
    (checkExpr env false e).Ends n checked n₁ errors →
    (settle (rule i checked.type) checked.span checked).Ends n₁ e' n₂ own →
    ChecksRow env rule (i + 1) n₂ es es' n' more →
    ChecksRow env rule i n (e :: es) (e' :: es') n' (errors ++ own ++ more)

theorem checksRow_checkAll {i : Nat} {es es' : List Expr} (hrule : ∀ j t, i ≤ j → rule j t = .silent)
    (h : (checkAll env es).Ends n es' n' errors) : ChecksRow env rule i n es es' n' errors := by
  induction es generalizing i n es' errors with
  | nil =>
    obtain ⟨rfl, rfl, rfl⟩ := ends_pure.1 h
    exact .nil
  | cons e es ih =>
    simp only [checkAll, ends_bind, ends_pure] at h
    obtain ⟨e', n₁, errors, _, rfl, he, es', n₂, more, _, rfl, hrest, rfl, rfl, rfl⟩ := h
    have hsettle : (settle (rule i e'.type) e'.span e').Ends n₁ e' n₁ [] := by
      rw [hrule i _ (Nat.le_refl i)]
      rfl
    have hrow := ChecksRow.cons he hsettle (ih (fun j t hj => hrule j t (Nat.le_of_succ_le hj)) hrest)
    simpa using hrow

theorem checksRow_checkElements {element : Ty} {i : Nat} {es es' : List Expr}
    (h : (checkElements env element es).Ends n es' n' errors) :
    ChecksRow env (fun _ => storeRuling .wrongInitialiserElement element) i n es es' n' errors := by
  induction es generalizing i n es' errors with
  | nil =>
    obtain ⟨rfl, rfl, rfl⟩ := ends_pure.1 h
    exact .nil
  | cons e es ih =>
    simp only [checkElements, ends_bind, ends_pure] at h
    obtain ⟨checked, n₁, errors, _, rfl, he, e', n₂, own, _, rfl, hsettle, es', n₃, more, _, rfl, hes, rfl, rfl,
      rfl⟩ := h
    have hrow := ChecksRow.cons he hsettle (ih (i := i + 1) hes)
    simpa using hrow

/-- The arguments from an index on, with the parameters from there on. -/
theorem checksRow_checkArgs {all params : List Ty} {i : Nat} {args args' : List Expr} (hparams : all.drop i = params)
    (hi : i ≤ all.length) (h : (checkArgs env params args).Ends n args' n' errors) :
    ChecksRow env (argumentRulingAt all) i n args args' n' errors := by
  induction args generalizing i params n args' errors with
  | nil =>
    rw [checkArgs] at h
    obtain ⟨rfl, rfl, rfl⟩ := ends_pure.1 h
    exact .nil
  | cons arg args ih =>
    cases params with
    | nil =>
      -- the parameters end here, so that this is the argument that is reported
      have hlast : i = all.length := Nat.le_antisymm hi (List.drop_eq_nil_iff.1 hparams)
      have hnone {j : Nat} (hj : i ≤ j) : all[j]? = none := List.getElem?_eq_none (hlast ▸ hj)
      simp only [checkArgs, ends_bind, ends_report, ends_pure] at h
      obtain ⟨arg', _, errors, _, rfl, harg, _, n₁, _, _, rfl, ⟨rfl, rfl⟩, args', n₂, more, _, rfl, hrest, rfl, rfl,
        rfl⟩ := h
      have hsettle : (settle (argumentRulingAt all i arg'.type) arg'.span arg').Ends n₁ arg' n₁
          [⟨.tooManyArguments, arg'.span⟩] := by
        rw [argumentRulingAt, hnone (Nat.le_refl i), if_pos hlast]
        rfl
      have hsilent (j : Nat) (t : Ty) (hj : i + 1 ≤ j) : argumentRulingAt all j t = .silent := by
        rw [argumentRulingAt, hnone (by omega), if_neg (by omega)]
      have hrow := ChecksRow.cons harg hsettle (checksRow_checkAll hsilent hrest)
      simpa using hrow
    | cons param params =>
      have hparam : all[i]? = some param := by
        rw [← List.head?_drop, hparams, List.head?_cons]
      have hlt : i < all.length := (List.getElem?_eq_some_iff.1 hparam).1
      have hrule (t : Ty) : argumentRulingAt all i t = argumentRuling param t := by
        rw [argumentRulingAt, hparam]
      simp only [checkArgs, ends_bind, ends_pure] at h
      obtain ⟨checked, n₁, errors, _, rfl, harg, arg', n₂, own, _, rfl, hsettle, args', n₃, more, _, rfl, hrest, rfl,
        rfl, rfl⟩ := h
      rw [← hrule] at hsettle
      have hdrop : all.drop (i + 1) = params := by
        rw [← List.drop_drop, hparams, List.drop_one, List.tail_cons]
      have hrow := ChecksRow.cons harg hsettle (ih hdrop hlt hrest)
      simpa using hrow

@[simp] theorem ends_report_pure {σ α : Type} {f : Fault} {span : Span} {a b : α} {s s' : σ} :
    (report f span >>= fun _ => pure a : Check σ α).Ends s b s' errors ↔ b = a ∧ s' = s ∧ errors = [⟨f, span⟩] := by
  constructor
  · intro h
    cases h
    exact ⟨rfl, rfl, rfl⟩
  · rintro ⟨rfl, rfl, rfl⟩
    rfl

/-- What is accepted for a conversion is converted, and nothing else is. -/
theorem eq_of_settle {ruling : Ruling Bool} {span : Span} (h : (settle ruling span e).Ends n e' n' errors) :
    ruling = .accept true ∧ e' = .intToFloat ⟨⟨n⟩, e.span, some .float⟩ e ∨ ruling ≠ .accept true ∧ e' = e := by
  cases ruling with
  | accept needed =>
    obtain ⟨hw, -⟩ := ends_widenIf.1 h
    cases hw with
    | keep => exact .inr ⟨by simp, rfl⟩
    | widen => exact .inl ⟨rfl, rfl⟩
  | reject f => exact .inr ⟨by simp, (ends_report_pure.1 h).1⟩
  | silent => exact .inr ⟨by simp, (ends_pure.1 h).1⟩

theorem ChecksRow.length {i : Nat} {es es' : List Expr} (h : ChecksRow env rule i n es es' n' errors) :
    es'.length = es.length := by
  induction h with
  | nil => rfl
  | cons _ _ _ ih => rw [List.length_cons, List.length_cons, ih]

/-- What becomes of one expression in a row. -/
theorem ChecksRow.get {i j : Nat} {es es' : List Expr} (h : ChecksRow env rule i n es es' n' errors)
    (he : es[j]? = some e) (he' : es'[j]? = some e') : ∃ start checked stop first,
      (checkExpr env false e).Ends start checked stop first ∧
        (rule (i + j) checked.type = .accept true ∧ e' = .intToFloat ⟨⟨stop⟩, checked.span, some .float⟩ checked ∨
          rule (i + j) checked.type ≠ .accept true ∧ e' = checked) := by
  induction h generalizing j with
  | nil => cases he
  | cons hc hsettle _ ih =>
    cases j with
    | zero =>
      cases he
      cases he'
      exact ⟨_, _, _, _, hc, eq_of_settle hsettle⟩
    | succ j =>
      have hrest := ih he he'
      rwa [Nat.add_right_comm] at hrest

/-- A rule converts nothing but an `int`. -/
def WidensInt (rule : Nat → Ty → Ruling Bool) : Prop := ∀ i t, rule i t = .accept true → t = .int

theorem widensInt_silent : WidensInt fun _ _ => .silent := by
  rintro i t ⟨⟩

theorem widensInt_arguments (params : List Ty) : WidensInt (argumentRulingAt params) := by
  intro i t h
  unfold argumentRulingAt at h
  split at h
  · exact int_of_argumentRuling h
  · split_ifs at h

theorem widensInt_elements (f : Fault) (element : Ty) : WidensInt fun _ => storeRuling f element :=
  fun _ _ h => int_of_storeRuling h

/-- Of a row each expression is checked once, and what is reported beside that is what is wrong with the row. -/
theorem ChecksRow.visits {i : Nat} {es es' : List Expr} (h : ChecksRow env rule i n es es' n' errors)
    (hrule : WidensInt rule) : ∃ visits : List ExprVisit, visits.map (·.source) = es ∧ (∀ v ∈ visits, v.Ran env false) ∧
      List.Forall₂ ExprVisit.Fills visits es' ∧ ∀ τ, (∀ v ∈ visits, v.TypedBy τ) →
        errors.Perm (rowErrors rule τ i es ++ visits.flatMap (·.errors)) := by
  induction h with
  | nil => exact ⟨[], rfl, by simp, .nil, fun _ _ => .nil⟩
  | @cons i n n₁ n₂ n' e checked e' es es' errors own more he hsettle _ ih =>
    obtain ⟨visits, hsources, hran, hfills, herrors⟩ := ih
    let v : ExprVisit := ⟨e, n, checked, n₁, errors⟩
    have hv : v.Ran env false := he
    obtain ⟨hconverted, rfl⟩ := ends_settle hsettle (hrule i _)
    refine ⟨v :: visits, by simp [v, hsources], List.forall_mem_cons.2 ⟨hv, hran⟩, .cons ⟨_, _, hconverted⟩ hfills, ?_⟩
    intro τ hτ
    obtain ⟨htype, hmore⟩ := List.forall_mem_cons.1 hτ
    have hown : reported (rule i (τ e.id)).fault? e.span =
        reported (rule i checked.type).fault? checked.span := by
      rw [show τ e.id = checked.type from htype, hv.elaborates.span]
    rw [rowErrors_cons, hown, List.flatMap_cons]
    -- what is wrong with the first one stands behind the errors of its parts, and before those of the rest
    have hfirst : (errors ++ reported (rule i checked.type).fault? checked.span).Perm
        (reported (rule i checked.type).fault? checked.span ++ errors) := List.perm_append_comm
    refine (hfirst.append (herrors τ hmore)).trans ?_
    simp only [List.append_assoc]
    refine List.Perm.append_left _ ?_
    rw [← List.append_assoc, ← List.append_assoc]
    exact List.perm_append_comm.append_right _

/-! ## One expression -/

/-- How the check of an expression splits into the checks of its parts and the verdict on its root. -/
structure SplitsExpr (env : Env) (whole : Bool) (e e' : Expr) (errors : List Error) (visits : List ExprVisit) :
    Prop where
  sources : visits.map (·.source) = e.children
  ran : ∀ v ∈ visits, v.Ran env false
  fills : List.Forall₂ ExprVisit.Fills visits e'.children
  typed : ∀ τ, (∀ v ∈ visits, v.TypedBy τ) → e'.info.ty = some (e.verdict env whole τ).ty
  errors : ∀ τ, (∀ v ∈ visits, v.TypedBy τ) →
    errors.Perm ((e.verdict env whole τ).errors ++ visits.flatMap (·.errors))

/-- A leaf. -/
theorem splits_leaf (hchildren : e.children = []) (hchildren' : e'.children = [])
    (hverdict : ∀ τ, e.verdict env whole τ = ⟨e'.type, errors⟩) (hty : e'.info.ty = some e'.type) :
    SplitsExpr env whole e e' errors [] := by
  constructor
  · exact hchildren.symm
  · simp
  · rw [hchildren']
    exact .nil
  · intro τ _
    rw [hverdict, hty]
  · intro τ _
    simp [hverdict]

/-- An expression with one part, which is not converted. -/
theorem splits_one {c c' : Expr} {n₁ : Nat} {first own : List Error}
    (hrun : (checkExpr env false c).Ends n c' n₁ first) (hchildren : e.children = [c]) (hchildren' : e'.children = [c'])
    (hverdict : ∀ τ, τ c.id = c'.type → e.verdict env whole τ = ⟨e'.type, own⟩) (hty : e'.info.ty = some e'.type) :
    SplitsExpr env whole e e' (first ++ own) [⟨c, n, c', n₁, first⟩] := by
  have hsame (τ : ExprId → Ty) (hτ : ∀ v ∈ [(⟨c, n, c', n₁, first⟩ : ExprVisit)], v.TypedBy τ) :
      e.verdict env whole τ = ⟨e'.type, own⟩ := hverdict τ (hτ ⟨c, n, c', n₁, first⟩ (by simp))
  constructor
  · exact hchildren.symm
  · exact List.forall_mem_singleton.2 hrun
  · rw [hchildren']
    exact .cons (.refl _) .nil
  · intro τ hτ
    rw [hsame τ hτ, hty]
  · intro τ hτ
    rw [hsame τ hτ, List.flatMap_singleton]
    exact List.perm_append_comm

/-- An expression with two parts, each of which may be converted. -/
theorem splits_two (front : List Error) {c c' c'' d d' d'' : Expr} {n₁ n₂ : Nat} {first more own : List Error}
    (hc : (checkExpr env false c).Ends n c' n₁ first) (hd : (checkExpr env false d).Ends n₁ d' n₂ more)
    (hchildren : e.children = [c, d]) (hchildren' : e'.children = [c'', d'']) (hc' : ∃ n m, Converted n c' c'' m)
    (hd' : ∃ n m, Converted n d' d'' m)
    (hverdict : ∀ τ, τ c.id = c'.type → τ d.id = d'.type → e.verdict env whole τ = ⟨e'.type, front ++ own⟩)
    (hty : e'.info.ty = some e'.type) :
    SplitsExpr env whole e e' (front ++ first ++ more ++ own) [⟨c, n, c', n₁, first⟩, ⟨d, n₁, d', n₂, more⟩] := by
  have hsame (τ : ExprId → Ty)
      (hτ : ∀ v ∈ [(⟨c, n, c', n₁, first⟩ : ExprVisit), ⟨d, n₁, d', n₂, more⟩], v.TypedBy τ) :
      e.verdict env whole τ = ⟨e'.type, front ++ own⟩ :=
    hverdict τ (hτ ⟨c, n, c', n₁, first⟩ (by simp)) (hτ ⟨d, n₁, d', n₂, more⟩ (by simp))
  constructor
  · exact hchildren.symm
  · exact List.forall_mem_cons.2 ⟨hc, List.forall_mem_singleton.2 hd⟩
  · rw [hchildren']
    exact .cons hc' (.cons hd' .nil)
  · intro τ hτ
    rw [hsame τ hτ, hty]
  · intro τ hτ
    rw [hsame τ hτ]
    simp only [List.flatMap_cons, List.flatMap_nil, List.append_nil, List.append_assoc]
    rw [← List.append_assoc first]
    exact List.perm_append_comm.append_left front

/-- An expression whose parts are a row. What it reports itself stands in front of the row, in it and behind it. -/
theorem splits_row (front : List Error) {es es' : List Expr} {n₁ n₂ : Nat} {more own : List Error}
    (hrow : ChecksRow env rule 0 n₁ es es' n₂ more) (hrule : WidensInt rule) (hchildren : e.children = es)
    (hchildren' : e'.children = es')
    (hverdict : ∀ τ, e.verdict env whole τ = ⟨e'.type, front ++ rowErrors rule τ 0 es ++ own⟩)
    (hty : e'.info.ty = some e'.type) : ∃ visits, SplitsExpr env whole e e' (front ++ more ++ own) visits := by
  obtain ⟨visits, hsources, hran, hfills, herrors⟩ := hrow.visits hrule
  refine ⟨visits, ⟨?_, hran, ?_, fun τ _ => ?_, fun τ hτ => ?_⟩⟩
  · rw [hsources, hchildren]
  · rw [hchildren']
    exact hfills
  · rw [hverdict, hty]
  · rw [hverdict]
    refine (((herrors τ hτ).append_left front).append_right own).trans ?_
    simp only [List.append_assoc]
    exact (List.perm_append_comm.append_left _).append_left front

theorem ends_finishUnary {op : Operator} {operand : Expr} (h : (finishUnary info op operand).Ends n e' n' errors) :
    e'.children = [operand] ∧ e'.info.ty = some e'.type ∧
      (unaryRuling op.spelling operand.type).verdict Prod.fst info.span = ⟨e'.type, errors⟩ := by
  unfold finishUnary at h
  cases hr : unaryRuling op.spelling operand.type <;> rw [hr] at h <;> cases h <;> exact ⟨rfl, rfl, rfl⟩

theorem ends_finishBinary {op : Operator} {left right : Expr}
    (h : (finishBinary info op left right).Ends n e' n' errors) :
    (∃ left' right', e'.children = [left', right'] ∧ (∃ n m, Converted n left left' m) ∧
      ∃ n m, Converted n right right' m) ∧ e'.info.ty = some e'.type ∧
    (binaryRuling op.spelling left.type right.type left.name right.name).verdict Prod.fst info.span =
      ⟨e'.type, errors⟩ := by
  unfold finishBinary at h
  have hkeep : (∃ left' right', [left, right] = [left', right'] ∧ (∃ n m, Converted n left left' m) ∧
      ∃ n m, Converted n right right' m) := ⟨left, right, rfl, ⟨0, 0, .keep⟩, 0, 0, .keep⟩
  cases hr : binaryRuling op.spelling left.type right.type left.name right.name with
  | accept r =>
    rw [hr] at h
    simp only [ends_bind, ends_widenIf, ends_pure] at h
    obtain ⟨left', n₁, _, _, rfl, ⟨hwl, rfl⟩, right', n₂, _, _, rfl, ⟨hwr, rfl⟩, rfl, rfl, rfl⟩ := h
    obtain ⟨hop, hu⟩ := binaryOp_of_ruling hr
    rw [hu] at hwl hwr
    have hleft := hwl.converted int_of_unified.1
    have hright := hwr.converted int_of_unified.2
    exact ⟨⟨left', right', rfl, ⟨_, _, hleft⟩, _, _, hright⟩, rfl, rfl⟩
  | reject f =>
    rw [hr] at h
    cases h
    exact ⟨hkeep, rfl, rfl⟩
  | silent =>
    rw [hr] at h
    cases h
    exact ⟨hkeep, rfl, rfl⟩

theorem ends_finishAssign {target value : Expr} (h : (finishAssign info target value).Ends n e' n' errors) :
    (∃ value', e'.children = [target, value'] ∧ ∃ n m, Converted n value value' m) ∧ e'.info.ty = some e'.type ∧
    (assignRuling target.type value.type value.name).verdict (fun _ => target.type) info.span = ⟨e'.type, errors⟩ := by
  unfold finishAssign at h
  cases hr : assignRuling target.type value.type value.name with
  | accept needed =>
    rw [hr] at h
    simp only [ends_bind, ends_widenIf, ends_pure] at h
    obtain ⟨value', n₁, _, _, rfl, ⟨hw, rfl⟩, rfl, rfl, rfl⟩ := h
    exact ⟨⟨value', rfl, _, _, hw.converted (assignRuling_accept hr).1⟩, rfl, rfl⟩
  | reject f =>
    rw [hr] at h
    cases h
    exact ⟨⟨value, rfl, 0, 0, .keep⟩, rfl, rfl⟩
  | silent =>
    rw [hr] at h
    cases h
    exact ⟨⟨value, rfl, 0, 0, .keep⟩, rfl, rfl⟩

/-- A variable by itself. -/
theorem splits_var (h : (checkVar env whole info ident).Ends n e' n' errors) :
    SplitsExpr env whole (.var info ident) e' errors [] := by
  unfold checkVar at h
  rcases hb : env.retrieve ident.spelling with _ | ⟨d, t | ⟨ret, params⟩⟩ <;> rw [hb] at h
  · obtain ⟨rfl, -, rfl⟩ := ends_report_pure.1 h
    exact splits_leaf rfl rfl (fun τ => by simp only [Expr.verdict, hb]; rfl) rfl
  · obtain ⟨rfl, -, rfl⟩ := ends_pure.1 h
    exact splits_leaf rfl rfl (fun τ => by simp only [Expr.verdict, hb]; rfl) rfl
  · cases whole with
    | false =>
      obtain ⟨rfl, -, rfl⟩ := ends_report_pure.1 h
      exact splits_leaf rfl rfl (fun τ => by simp only [Expr.verdict, hb]; rfl) rfl
    | true =>
      obtain ⟨rfl, -, rfl⟩ := ends_pure.1 h
      exact splits_leaf rfl rfl (fun τ => by simp only [Expr.verdict, hb]; rfl) rfl

theorem ends_checkAccess {index : Expr} (h : (checkAccess env info ident index).Ends n e' n' errors) :
    e'.children = [index] ∧ e'.info.ty = some e'.type ∧ ∀ (source : Expr) (τ : ExprId → Ty), τ source.id = index.type →
      source.span = index.span → (Expr.arrayAccess info ident source).verdict env whole τ = ⟨e'.type, errors⟩ := by
  unfold checkAccess at h
  rcases hb : env.retrieve ident.spelling with _ | b <;> rw [hb] at h
  · obtain ⟨rfl, -, rfl⟩ := ends_report_pure.1 h
    exact ⟨rfl, rfl, fun _ _ _ _ => by simp only [Expr.verdict, hb]; rfl⟩
  dsimp only at h
  rcases helement : b.signature.element? with _ | element <;> rw [helement] at h
  · obtain ⟨rfl, -, rfl⟩ := ends_report_pure.1 h
    exact ⟨rfl, rfl, fun _ _ _ _ => by simp only [Expr.verdict, hb, helement]; rfl⟩
  dsimp only at h
  rcases hf : subscriptFault? index.type with _ | f <;> rw [hf] at h
  · obtain ⟨rfl, -, rfl⟩ := ends_pure.1 h
    exact ⟨rfl, rfl, fun _ _ hτ _ => by simp only [Expr.verdict, hb, helement, hτ, hf]; rfl⟩
  · obtain ⟨rfl, -, rfl⟩ := ends_report_pure.1 h
    exact ⟨rfl, rfl, fun _ _ hτ hspan => by simp only [Expr.verdict, hb, helement, hτ, hf, hspan]; rfl⟩

@[simp] theorem rowErrors_silent (τ : ExprId → Ty) (i : Nat) (es : List Expr) :
    rowErrors (fun _ _ => .silent) τ i es = [] := by
  simp [rowErrors, Ruling.fault?]

/-- A call of a function that is in scope. -/
theorem ends_call {args : List Expr} {d : DeclId} {ret : Ty} {params : List Ty} (hmain : ident.spelling ≠ "main")
    (hb : env.retrieve ident.spelling = some ⟨d, .func ret params⟩)
    (h : (checkExpr env whole (.call info ident args)).Ends n e' n' errors) :
    ∃ args' more, ChecksRow env (argumentRulingAt params) 0 n args args' n' more ∧
      e' = .call (info.typed ret) (ident.bindTo d) args' ∧
      errors = more ++ if args.length < params.length then [⟨.tooFewArguments, info.span⟩] else [] := by
  rw [checkExpr, if_neg hmain, hb] at h
  simp only [ends_bind] at h
  obtain ⟨args', n₁, more, own, rfl, hall, h⟩ := h
  have hrow : ChecksRow env (argumentRulingAt params) 0 n args args' n₁ more :=
    checksRow_checkArgs rfl (Nat.zero_le _) hall
  split_ifs at h ⊢
  · obtain ⟨rfl, rfl, rfl⟩ := ends_report_pure.1 h
    exact ⟨args', more, hrow, rfl, rfl⟩
  · obtain ⟨rfl, rfl, rfl⟩ := ends_pure.1 h
    exact ⟨args', more, hrow, rfl, rfl⟩

/-- A call. -/
theorem splits_call {args : List Expr} (h : (checkExpr env whole (.call info ident args)).Ends n e' n' errors) :
    ∃ visits, SplitsExpr env whole (.call info ident args) e' errors visits := by
  -- what is called is no function, or is not there: nothing is asked of the arguments
  have hwrong {f : Fault} {span : Span} {ident' : Ident}
      (hverdict : ∀ τ, (Expr.call info ident args).verdict env whole τ = ⟨.error, [⟨f, span⟩]⟩)
      (h : (report f span >>= fun _ => checkAll env args >>= fun args' =>
        pure (.call (info.typed .error) ident' args')).Ends n e' n' errors) :
      ∃ visits, SplitsExpr env whole (.call info ident args) e' errors visits := by
    simp only [ends_bind, ends_report, ends_pure] at h
    obtain ⟨_, _, _, _, rfl, ⟨rfl, rfl⟩, args', n₁, more, _, rfl, hall, rfl, rfl, rfl⟩ := h
    have hrow : ChecksRow env (fun _ _ => .silent) 0 _ _ _ _ _ := checksRow_checkAll (fun _ _ _ => rfl) hall
    rw [← List.append_assoc]
    exact splits_row _ hrow widensInt_silent rfl rfl (fun τ => by rw [hverdict, rowErrors_silent]; rfl) rfl
  by_cases hmain : ident.spelling = "main"
  · rw [checkExpr, if_pos hmain] at h
    exact hwrong (fun τ => by rw [Expr.verdict, if_pos hmain]) h
  rcases hb : env.retrieve ident.spelling with _ | ⟨d, t | ⟨ret, params⟩⟩
  · rw [checkExpr, if_neg hmain, hb] at h
    exact hwrong (fun τ => by simp only [Expr.verdict, if_neg hmain, hb]) h
  · rw [checkExpr, if_neg hmain, hb] at h
    exact hwrong (fun τ => by simp only [Expr.verdict, if_neg hmain, hb]) h
  · obtain ⟨args', more, hrow, rfl, rfl⟩ := ends_call hmain hb h
    refine splits_row [] hrow (widensInt_arguments params) rfl rfl (fun τ => ?_) rfl
    simp only [Expr.verdict, if_neg hmain, hb]
    rfl

/-- The check of an expression checks each of its parts once, and adds nothing but the verdict on the root. -/
theorem splits_checkExpr (h : (checkExpr env whole e).Ends n e' n' errors) :
    ∃ visits, SplitsExpr env whole e e' errors visits := by
  cases e with
  | binary info op left right =>
    simp only [checkExpr, ends_bind] at h
    obtain ⟨left', n₁, first, _, rfl, hl, right', n₂, more, own, rfl, hr, h⟩ := h
    obtain ⟨⟨left'', right'', hchildren, hleft, hright⟩, hty, hverdict⟩ := ends_finishBinary h
    rw [(elaborates_checkExpr hl).name, (elaborates_checkExpr hr).name] at hverdict
    rw [← List.append_assoc]
    exact ⟨_, splits_two [] hl hr rfl hchildren hleft hright
      (fun τ hτl hτr => by rw [Expr.verdict, hτl, hτr, hverdict]; rfl) hty⟩
  | unary info op operand =>
    simp only [checkExpr, ends_bind] at h
    obtain ⟨operand', n₁, first, own, rfl, ho, h⟩ := h
    obtain ⟨hchildren, hty, hverdict⟩ := ends_finishUnary h
    exact ⟨_, splits_one ho rfl hchildren (fun τ hτ => by rw [Expr.verdict, hτ, hverdict]) hty⟩
  | assign info target value =>
    rw [checkExpr] at h
    split_ifs at h with hl
    · simp only [ends_bind] at h
      obtain ⟨target', n₁, first, _, rfl, ht, value', n₂, more, own, rfl, hv, h⟩ := h
      obtain ⟨⟨value'', hchildren, hvalue⟩, hty, hverdict⟩ := ends_finishAssign h
      rw [(elaborates_checkExpr hv).name] at hverdict
      rw [← List.append_assoc]
      exact ⟨_, splits_two [] ht hv rfl hchildren ⟨0, 0, .keep⟩ hvalue
        (fun τ hτt hτv => by rw [Expr.verdict, if_pos hl, hτt, hτv, hverdict]; rfl) hty⟩
    · simp only [ends_bind, ends_report, ends_pure] at h
      obtain ⟨_, _, _, _, rfl, ⟨rfl, rfl⟩, target', n₁, first, _, rfl, ht, value', _, more, _, rfl, hv, rfl, rfl,
        rfl⟩ := h
      rw [← List.append_assoc, ← List.append_assoc]
      exact ⟨_, splits_two _ ht hv rfl rfl ⟨0, 0, .keep⟩ ⟨0, 0, .keep⟩
        (fun τ _ _ => by rw [Expr.verdict, if_neg hl]; rfl) rfl⟩
  | var info ident => exact ⟨[], splits_var h⟩
  | arrayAccess info ident index =>
    simp only [checkExpr, ends_bind] at h
    obtain ⟨index', n₁, first, own, rfl, hindex, h⟩ := h
    obtain ⟨hchildren, hty, hverdict⟩ := ends_checkAccess h
    have hspan := (elaborates_checkExpr hindex).span
    exact ⟨_, splits_one hindex rfl hchildren (fun τ hτ => hverdict index τ hτ hspan.symm) hty⟩
  | call info ident args => exact splits_call h
  | initList info elements =>
    simp only [checkExpr, ends_bind, ends_pure] at h
    obtain ⟨elements', n₁, more, _, rfl, hall, rfl, rfl, rfl⟩ := h
    have hrow : ChecksRow env (fun _ _ => .silent) 0 _ _ _ _ _ := checksRow_checkAll (fun _ _ _ => rfl) hall
    exact splits_row [] hrow widensInt_silent rfl rfl
      (fun τ => by rw [Expr.verdict, rowErrors_silent]; rfl) rfl
  | literal info value =>
    rw [checkExpr] at h
    obtain ⟨rfl, rfl, rfl⟩ := ends_pure.1 h
    exact ⟨[], splits_leaf rfl rfl (fun τ => rfl) rfl⟩
  | intToFloat info operand =>
    simp only [checkExpr, ends_bind, ends_pure] at h
    obtain ⟨operand', n₁, first, _, rfl, ho, rfl, rfl, rfl⟩ := h
    exact ⟨_, splits_one ho rfl rfl (fun τ _ => rfl) rfl⟩

end Typing

end VCLang
