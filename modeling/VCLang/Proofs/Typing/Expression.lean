/-
The check of expressions decides the judgement of types: where it reports nothing the expression has the
type that was filled in, and where the expression has a type nothing is reported.
-/
import VCLang.Proofs.Tree.Source
import VCLang.Proofs.Typing.Rules
import VCLang.Proofs.Typing.Runs
namespace VCLang

open Static Check

/-! ## Scopes -/

namespace Scopes

variable {α β : Type}

/-- Scopes with something else known of each name. -/
def map (f : α → β) (s : Scopes α) : Scopes β :=
  ⟨s.innermost.map fun x => (x.1, f x.2), s.outer.map fun scope => scope.map fun x => (x.1, f x.2)⟩

theorem lookup_map (f : α → β) (name : String) (scope : List (String × α)) :
    (scope.map fun x => (x.1, f x.2)).lookup name = (scope.lookup name).map f := by
  induction scope with
  | nil => rfl
  | cons x xs ih =>
    rw [List.map_cons, List.lookup_cons, List.lookup_cons, ih]
    split <;> rfl

theorem retrieveOneLevel_map (f : α → β) (s : Scopes α) (name : String) :
    (s.map f).retrieveOneLevel name = (s.retrieveOneLevel name).map f :=
  lookup_map f name s.innermost

theorem retrieve_map (f : α → β) (s : Scopes α) (name : String) :
    (s.map f).retrieve name = (s.retrieve name).map f := by
  have all (scopes : List (List (String × α))) :
      (scopes.map fun scope => scope.map fun x => (x.1, f x.2)).findSome? (·.lookup name) =
        (scopes.findSome? (·.lookup name)).map f := by
    induction scopes with
    | nil => rfl
    | cons scope scopes ih =>
      rw [List.map_cons, List.findSome?_cons, List.findSome?_cons, lookup_map, ih]
      rcases scope.lookup name with _ | a <;> rfl
  exact all (s.innermost :: s.outer)

/-- What a name is bound to behind a new binding is this one or what was bound before. -/
theorem of_retrieve_insert {s : Scopes α} {name other : String} {a b : α}
    (h : (s.insert name a).retrieve other = some b) : (other = name ∧ b = a) ∨ s.retrieve other = some b := by
  by_cases heq : other = name
  · subst heq
    rw [retrieve_insert_self] at h
    exact .inl ⟨rfl, (Option.some.inj h).symm⟩
  · rw [retrieve_insert_ne _ _ heq] at h
    exact .inr h

end Scopes

/-- What is known of the names in scope, without the numbers of their declarations. -/
def Env.scope (env : Env) : Scope := env.map Binding.signature

theorem Env.retrieve_scope {env : Env} {name : String} {s : Signature} :
    env.scope.retrieve name = some s ↔ ∃ d, env.retrieve name = some ⟨d, s⟩ := by
  rw [scope, Scopes.retrieve_map, Option.map_eq_some_iff]
  constructor
  · rintro ⟨b, hb, rfl⟩
    exact ⟨b.decl, hb⟩
  · rintro ⟨d, hd⟩
    exact ⟨⟨d, s⟩, hd, rfl⟩

/-! ## Types in which nothing went wrong -/

def Signature.Proper : Signature → Prop
  | var t => t.Proper
  | func ret params => ret.Proper ∧ ∀ p ∈ params, p.Proper

/-- Scopes in which all names are of types in which nothing went wrong. -/
def Static.Scope.Proper (Γ : Scope) : Prop := ∀ name s, Γ.retrieve name = some s → s.Proper

theorem Static.Scope.Proper.insert {Γ : Scope} (hΓ : Γ.Proper) {name : String} {s : Signature} (hs : s.Proper) :
    Scope.Proper (Γ.insert name s) := by
  intro other t ht
  rcases Scopes.of_retrieve_insert ht with ⟨-, rfl⟩ | ht
  · exact hs
  · exact hΓ other t ht

theorem Static.Scope.Proper.openScope {Γ : Scope} (hΓ : Γ.Proper) : Scope.Proper Γ.openScope := by
  intro name s hs
  rw [Scopes.retrieve_openScope] at hs
  exact hΓ name s hs

theorem Ty.Declared.proper {t : Ty} (h : t.Declared) : t.Proper := by
  induction h with
  | array _ _ ih => exact ih
  | _ => trivial

theorem Static.UnaryOp.proper {op : String} {a t : Ty} (h : UnaryOp op a t) : t.Proper := by
  cases h with
  | not => trivial
  | sign _ ht =>
    simp only [List.mem_cons, List.not_mem_nil, or_false] at ht
    rcases ht with rfl | rfl <;> trivial

theorem Static.BinaryOp.proper {op : String} {a b t : Ty} (h : BinaryOp op a b t) : t.Proper := by
  cases h with
  | arithmetic _ hc => cases hc <;> trivial
  | _ => trivial

theorem Static.HasType.proper {Γ : Scope} (hΓ : Γ.Proper) {e : Expr} {t : Ty} (h : HasType Γ e t) : t.Proper := by
  -- a target is a variable or an element, so that one case refers to two others and none needs induction
  have var {info : ExprInfo} {ident : Ident} {t : Ty} (h : HasType Γ (.var info ident) t) : t.Proper := by
    cases h with
    | var hr => exact hΓ _ _ hr
  have access {info : ExprInfo} {ident : Ident} {index : Expr} {t : Ty}
      (h : HasType Γ (.arrayAccess info ident index) t) : t.Proper := by
    cases h with
    | arrayAccess hr _ => exact hΓ _ _ hr
  cases h with
  | literal h => cases h <;> trivial
  | var hr => exact hΓ _ _ hr
  | arrayAccess hr _ => exact hΓ _ _ hr
  | call _ hr _ => exact (hΓ _ _ hr).1
  | unary _ hop => exact hop.proper
  | binary _ _ hop => exact hop.proper
  | @assign info target value t s hl ht _ _ =>
    cases target with
    | var => exact var ht
    | arrayAccess => exact access ht
    | _ => cases hl

theorem Static.Initialised.proper {Γ : Scope} {ty t : Ty} {init : Option Expr} (h : Initialised Γ ty init t)
    (hty : ty.Proper) : t.Proper := by
  cases h <;> exact hty

theorem Static.Declares.proper {Γ Γ' : Scope} {d : VarDecl} (h : Declares Γ d Γ') (hΓ : Γ.Proper)
    (hd : d.Plain) : Γ'.Proper := by
  cases h with
  | intro _ _ ht => exact hΓ.insert (ht.proper hd.ty.proper)

theorem Static.DeclaresAll.proper {Γ Γ' : Scope} {ds : List VarDecl} (h : DeclaresAll Γ ds Γ') (hΓ : Γ.Proper)
    (hds : ∀ d ∈ ds, d.Plain) : Γ'.Proper := by
  induction h with
  | nil => exact hΓ
  | cons hdecl _ ih => exact ih (hdecl.proper hΓ (hds _ (by simp))) fun d hd => hds d (by simp [hd])

theorem Static.DeclaresParams.proper {Γ Γ' : Scope} {ps : List Param} (h : DeclaresParams Γ ps Γ')
    (hΓ : Γ.Proper) (hps : ∀ p ∈ ps, p.ty.Proper) : Γ'.Proper := by
  induction h with
  | nil => exact hΓ
  | cons _ _ _ ih => exact ih (hΓ.insert (hps _ (by simp))) fun p hp => hps p (by simp [hp])

namespace Typing

variable {env : Env} {n n' : Nat} {e e' : Expr}

/-! ## Single forms -/

section Forms

variable {whole : Bool} {info : ExprInfo} {ident : Ident}

/-- What a name means as an expression: a variable of its type, or, where it is a whole statement, a function
of the type that it returns. -/
def Means (whole : Bool) : Signature → Ty → Prop
  | .var t, t' => t' = t
  | .func ret _, t' => whole = true ∧ t' = ret

theorem runs_checkVar :
    (checkVar env whole info ident).Runs n e' n' ↔ ∃ b t, env.retrieve ident.spelling = some b ∧
      Means whole b.signature t ∧ e' = .var (info.typed t) (ident.bindTo b.decl) ∧ n' = n := by
  unfold checkVar
  rcases env.retrieve ident.spelling with _ | ⟨d, s⟩
  · simp
  · rcases s with t | ⟨ret, params⟩
    · simp [Means]
    · cases whole <;> simp [Means]

theorem runs_checkAccess {index : Expr} :
    (checkAccess env info ident index).Runs n e' n' ↔ ∃ b element, env.retrieve ident.spelling = some b ∧
      b.signature.element? = some element ∧ subscriptFault? index.type = none ∧
      e' = .arrayAccess (info.typed element) (ident.bindTo b.decl) index ∧ n' = n := by
  unfold checkAccess
  rcases env.retrieve ident.spelling with _ | b
  · simp
  · rcases h : b.signature.element? with _ | element
    · simp [h]
    · rcases subscriptFault? index.type <;> simp [h]

theorem runs_finishUnary {op : Operator} {operand : Expr} (ho : operand.type.Proper) :
    (finishUnary info op operand).Runs n e' n' ↔ ∃ t, UnaryOp op.spelling operand.type t ∧
      e' = .unary (info.typed t) (op.tagged (.of operand.type)) operand ∧ n' = n := by
  unfold finishUnary
  rcases h : unaryRuling op.spelling operand.type with ⟨t, tag⟩ | f | _
  · obtain ⟨hop, rfl⟩ := unaryRuling_iff.1 h
    simp only [runs_pure]
    constructor
    · rintro ⟨rfl, rfl⟩
      exact ⟨t, hop, rfl, rfl⟩
    · rintro ⟨t', hop', rfl, rfl⟩
      cases (unaryRuling_iff.2 ⟨hop', rfl⟩).symm.trans h
      exact ⟨rfl, rfl⟩
  · simp only [runs_bind, not_runs_report, false_and, exists_false, false_iff]
    rintro ⟨t, hop, -⟩
    cases (unaryRuling_iff.2 ⟨hop, rfl⟩).symm.trans h
  · -- nothing is passed over, since nothing went wrong in the operand
    have herror : operand.type ≠ .error := ho.ne_error
    unfold unaryRuling at h
    split at h <;> first
      | contradiction
      | split_ifs at h

theorem runs_finishBinary {op : Operator} {left right : Expr} (hl : left.type.Proper)
    (hr : right.type.Proper) :
    (finishBinary info op left right).Runs n e' n' ↔ ∃ t left' right' n₁,
      BinaryOp op.spelling left.type right.type t ∧
      Widened n left (Unified.of left.type right.type).widenLeft left' n₁ ∧
      Widened n₁ right (Unified.of left.type right.type).widenRight right' n' ∧
      e' = .binary (info.typed t) (op.tagged (Unified.of left.type right.type).tag) left' right' := by
  unfold finishBinary
  rcases h : binaryRuling op.spelling left.type right.type left.name right.name with ⟨t, u⟩ | f | _
  · obtain ⟨hop, rfl⟩ := (binaryRuling_iff hl hr).1 h
    simp only [runs_bind, runs_widenIf, runs_pure]
    constructor
    · rintro ⟨left', n₁, hleft, right', n₂, hright, rfl, rfl⟩
      exact ⟨t, left', right', n₁, hop, hleft, hright, rfl⟩
    · rintro ⟨t', left', right', n₁, hop', hleft, hright, rfl⟩
      cases ((binaryRuling_iff hl hr).2 ⟨hop', rfl⟩).symm.trans h
      exact ⟨left', n₁, hleft, right', n', hright, rfl, rfl⟩
  · simp only [runs_bind, not_runs_report, false_and, exists_false, false_iff]
    rintro ⟨t, left', right', n₁, hop, -⟩
    cases ((binaryRuling_iff hl hr).2 ⟨hop, rfl⟩).symm.trans h
  · -- nothing is passed over, since nothing went wrong in the operands
    unfold binaryRuling at h
    rw [hl.isError, hr.isError] at h
    split_ifs at h with herror
    · cases herror
    · split at h <;> cases h

theorem runs_finishAssign {target value : Expr} (ht : target.type.Proper) (hv : value.type.Proper) :
    (finishAssign info target value).Runs n e' n' ↔ ∃ value', Stores target.type value.type ∧
      Widened n value (target.type.needsIntToFloat value.type) value' n' ∧
      e' = .assign (info.typed target.type) target value' := by
  unfold finishAssign
  rcases h : assignRuling target.type value.type value.name with needed | f | _
  · obtain rfl : needed = target.type.needsIntToFloat value.type := by
      unfold assignRuling storeRuling at h
      split_ifs at h
      cases h
      rfl
    simp only [runs_bind, runs_widenIf, runs_pure]
    constructor
    · rintro ⟨value', n₁, hw, rfl, rfl⟩
      exact ⟨value', (assignRuling_iff ht hv).1 h, hw, rfl⟩
    · rintro ⟨value', -, hw, rfl⟩
      exact ⟨value', n', hw, rfl, rfl⟩
  · simp only [runs_bind, not_runs_report, false_and, exists_false, false_iff]
    rintro ⟨value', hs, -⟩
    cases ((assignRuling_iff ht hv).2 hs).symm.trans h
  · unfold assignRuling storeRuling at h
    split_ifs at h

theorem runs_call {args : List Expr} :
    (checkExpr env whole (.call info ident args)).Runs n e' n' ↔ ident.spelling ≠ "main" ∧
      ∃ d ret params args', env.retrieve ident.spelling = some ⟨d, .func ret params⟩ ∧
        (checkArgs env params args).Runs n args' n' ∧ params.length ≤ args.length ∧
        e' = .call (info.typed ret) (ident.bindTo d) args' := by
  rw [checkExpr]
  by_cases hmain : ident.spelling = "main"
  · simp [hmain]
  rw [if_neg hmain]
  rcases env.retrieve ident.spelling with _ | ⟨d, t | ⟨ret, params⟩⟩
  · simp
  · simp
  · simp only [runs_bind, runs_ite_report_bind, runs_pure]
    constructor
    · rintro ⟨args', n₁, hargs, hlength, rfl, rfl⟩
      exact ⟨hmain, d, ret, params, args', rfl, hargs, by omega, rfl⟩
    · rintro ⟨-, d', ret', params', args', hd, hargs, hlength, rfl⟩
      cases hd
      exact ⟨args', n', hargs, by omega, rfl, rfl⟩

theorem runs_assign {target value : Expr} :
    (checkExpr env whole (.assign info target value)).Runs n e' n' ↔ target.isLvalue = true ∧
      ∃ target' n₁ value' n₂, (checkExpr env false target).Runs n target' n₁ ∧
        (checkExpr env false value).Runs n₁ value' n₂ ∧ (finishAssign info target' value').Runs n₂ e' n' := by
  rw [checkExpr]
  split_ifs with h <;> simp [h]

theorem runs_checkArgs_cons {params : List Ty} {arg : Expr} {args out : List Expr} :
    (checkArgs env params (arg :: args)).Runs n out n' ↔ ∃ param rest arg' n₁ arg'' n₂ args',
      params = param :: rest ∧ (checkExpr env false arg).Runs n arg' n₁ ∧
      argumentFits param arg'.type = true ∧
      Widened n₁ arg' (param.needsIntToFloat arg'.type) arg'' n₂ ∧
      (checkArgs env rest args).Runs n₂ args' n' ∧ out = arg'' :: args' := by
  cases params with
  | nil => simp [checkArgs]
  | cons param rest =>
    simp only [checkArgs, runs_bind, runs_settle_argument, runs_pure]
    constructor
    · rintro ⟨arg', n₁, harg, arg'', n₂, ⟨hfits, hw⟩, args', n₃, hargs, rfl, rfl⟩
      exact ⟨param, rest, arg', n₁, arg'', n₂, args', rfl, harg, hfits, hw, hargs, rfl⟩
    · rintro ⟨_, _, arg', n₁, arg'', n₂, args', heq, harg, hfits, hw, hargs, rfl⟩
      cases heq
      exact ⟨arg', n₁, harg, arg'', n₂, ⟨hfits, hw⟩, args', n', hargs, rfl, rfl⟩

/-- What the check keeps of the root of an expression, and that it fills in a type. -/
structure SameRoot (e e' : Expr) : Prop where
  id : e'.id = e.id
  isTrueLiteral : e'.isTrueLiteral = e.isTrueLiteral
  isLvalue : e'.isLvalue = e.isLvalue
  typed : e'.info.ty = some e'.type

theorem root_checkExpr (h : (checkExpr env whole e).Runs n e' n') : SameRoot e e' := by
  cases e with
  | literal info value =>
    rw [checkExpr, runs_pure] at h
    obtain ⟨rfl, -⟩ := h
    exact ⟨rfl, rfl, rfl, rfl⟩
  | var info ident =>
    rw [checkExpr, runs_checkVar] at h
    obtain ⟨b, t, -, -, rfl, -⟩ := h
    exact ⟨rfl, rfl, rfl, rfl⟩
  | arrayAccess info ident index =>
    simp only [checkExpr, runs_bind, runs_checkAccess] at h
    obtain ⟨index', n₁, -, b, element, -, -, -, rfl, -⟩ := h
    exact ⟨rfl, rfl, rfl, rfl⟩
  | call info ident args =>
    obtain ⟨-, d, ret, params, args', -, -, -, rfl⟩ := runs_call.1 h
    exact ⟨rfl, rfl, rfl, rfl⟩
  | unary info op operand =>
    simp only [checkExpr, finishUnary, runs_bind] at h
    obtain ⟨operand', n₁, -, h⟩ := h
    -- accepted, reported, or passed over because the operand was reported
    split at h
    · obtain ⟨rfl, -⟩ := runs_pure.1 h
      exact ⟨rfl, rfl, rfl, rfl⟩
    · simp at h
    · obtain ⟨rfl, -⟩ := runs_pure.1 h
      exact ⟨rfl, rfl, rfl, rfl⟩
  | binary info op left right =>
    simp only [checkExpr, finishBinary, runs_bind] at h
    obtain ⟨left', n₁, -, right', n₂, -, h⟩ := h
    split at h
    · simp only [runs_bind, runs_pure] at h
      obtain ⟨_, _, _, _, _, _, rfl, _⟩ := h
      exact ⟨rfl, rfl, rfl, rfl⟩
    · simp at h
    · obtain ⟨rfl, -⟩ := runs_pure.1 h
      exact ⟨rfl, rfl, rfl, rfl⟩
  | assign info target value =>
    obtain ⟨-, target', n₁, value', n₂, -, -, h⟩ := runs_assign.1 h
    unfold finishAssign at h
    split at h
    · simp only [runs_bind, runs_pure] at h
      obtain ⟨_, _, _, rfl, _⟩ := h
      exact ⟨rfl, rfl, rfl, rfl⟩
    · simp at h
    · obtain ⟨rfl, -⟩ := runs_pure.1 h
      exact ⟨rfl, rfl, rfl, rfl⟩
  | initList info elements =>
    simp only [checkExpr, runs_bind, runs_pure] at h
    obtain ⟨_, _, _, rfl, _⟩ := h
    exact ⟨rfl, rfl, rfl, rfl⟩
  | intToFloat info operand =>
    simp only [checkExpr, runs_bind, runs_pure] at h
    obtain ⟨_, _, _, rfl, _⟩ := h
    exact ⟨rfl, rfl, rfl, rfl⟩

end Forms

/-! ## The judgement of types -/

/-- The check of an expression, from any number of the next new one, finds the types that it has. -/
def Finds (env : Env) (e : Expr) : Prop :=
  ∀ n t, (∃ e' n', (checkExpr env false e).Runs n e' n' ∧ e'.type = t) ↔ HasType env.scope e t

theorem Finds.sound (h : Finds env e) (hr : (checkExpr env false e).Runs n e' n') :
    HasType env.scope e e'.type :=
  (h n _).1 ⟨e', n', hr, rfl⟩

theorem Finds.complete {t : Ty} (h : Finds env e) (ht : HasType env.scope e t) (n : Nat) :
    ∃ e' n', (checkExpr env false e).Runs n e' n' ∧ e'.type = t :=
  (h n t).2 ht

section Judgement

variable {info : ExprInfo} {ident : Ident}

theorem literalType_right (value : Literal) : LiteralType value (literalType value) := by
  cases value <;> constructor

theorem Finds.literal {value : Literal} : Finds env (.literal info value) := by
  intro n t
  simp only [checkExpr, runs_pure]
  constructor
  · rintro ⟨_, _, ⟨rfl, rfl⟩, rfl⟩
    exact .literal (literalType_right value)
  · rintro ⟨⟨⟩⟩ <;> exact ⟨_, _, ⟨rfl, rfl⟩, rfl⟩

theorem Finds.var : Finds env (.var info ident) := by
  intro n t
  simp only [checkExpr, runs_checkVar]
  constructor
  · rintro ⟨_, _, ⟨⟨d, s | ⟨ret, params⟩⟩, t', hd, hmeans, rfl, rfl⟩, rfl⟩
    · obtain rfl : t' = s := hmeans
      exact .var (Env.retrieve_scope.2 ⟨d, hd⟩)
    · cases hmeans.1
  · intro h
    cases h with
    | var hr =>
      obtain ⟨d, hd⟩ := Env.retrieve_scope.1 hr
      exact ⟨_, _, ⟨_, t, hd, rfl, rfl, rfl⟩, rfl⟩

theorem subscriptFault?_iff {t : Ty} (ht : t.Proper) : subscriptFault? t = none ↔ t = .int := by
  unfold subscriptFault?
  rw [ht.isError]
  cases t <;> simp [Ty.isInt]

theorem Signature.element?_iff {s : Signature} {t : Ty} :
    s.element? = some t ↔ ∃ size, s = .var (.array t size) := by
  rcases s with s | ⟨ret, params⟩
  · cases s <;> simp [Signature.element?, Ty.element?]
  · simp [Signature.element?]

theorem Finds.arrayAccess {index : Expr} (hΓ : env.scope.Proper) (hindex : Finds env index) :
    Finds env (.arrayAccess info ident index) := by
  intro n t
  simp only [checkExpr, runs_bind, runs_checkAccess]
  constructor
  · rintro ⟨_, n', ⟨index', n₁, hrun, ⟨d, s⟩, element, hd, helement, hfault, rfl, rfl⟩, rfl⟩
    obtain ⟨size, rfl⟩ := Signature.element?_iff.1 helement
    have ht := hindex.sound hrun
    rw [(subscriptFault?_iff (ht.proper hΓ)).1 hfault] at ht
    exact .arrayAccess (Env.retrieve_scope.2 ⟨d, hd⟩) ht
  · intro h
    cases h with
    | arrayAccess hr hint =>
      obtain ⟨d, hd⟩ := Env.retrieve_scope.1 hr
      obtain ⟨index', n₁, hrun, hint'⟩ := hindex.complete hint n
      exact ⟨_, _, ⟨index', n₁, hrun, _, t, hd, rfl, by rw [hint']; rfl, rfl, rfl⟩, rfl⟩

theorem Finds.unary {op : Operator} {operand : Expr} (hΓ : env.scope.Proper) (ho : Finds env operand) :
    Finds env (.unary info op operand) := by
  intro n t
  simp only [checkExpr, runs_bind]
  constructor
  · rintro ⟨e', n', ⟨operand', n₁, hrun, hfinish⟩, rfl⟩
    have ht := ho.sound hrun
    obtain ⟨t, hop, rfl, -⟩ := (runs_finishUnary (ht.proper hΓ)).1 hfinish
    exact .unary ht hop
  · intro h
    cases h with
    | unary ha hop =>
      obtain ⟨operand', n₁, hrun, rfl⟩ := ho.complete ha n
      exact ⟨_, _, ⟨operand', n₁, hrun, (runs_finishUnary (ha.proper hΓ)).2 ⟨t, hop, rfl, rfl⟩⟩, rfl⟩

theorem Finds.binary {op : Operator} {left right : Expr} (hΓ : env.scope.Proper) (hl : Finds env left)
    (hr : Finds env right) : Finds env (.binary info op left right) := by
  intro n t
  simp only [checkExpr, runs_bind]
  constructor
  · rintro ⟨e', n', ⟨left', n₁, hrunl, right', n₂, hrunr, hfinish⟩, rfl⟩
    have ha := hl.sound hrunl
    have hb := hr.sound hrunr
    obtain ⟨t, _, _, _, hop, -, -, rfl⟩ := (runs_finishBinary (ha.proper hΓ) (hb.proper hΓ)).1 hfinish
    exact .binary ha hb hop
  · intro h
    cases h with
    | binary ha hb hop =>
      obtain ⟨left', n₁, hrunl, rfl⟩ := hl.complete ha n
      obtain ⟨right', n₂, hrunr, rfl⟩ := hr.complete hb n₁
      obtain ⟨left'', n₃, hwl⟩ := Widened.exists n₂ left' (Unified.of left'.type right'.type).widenLeft
      obtain ⟨right'', n₄, hwr⟩ := Widened.exists n₃ right' (Unified.of left'.type right'.type).widenRight
      have hfinish : (finishBinary info op left' right').Runs n₂ _ n₄ :=
        (runs_finishBinary (ha.proper hΓ) (hb.proper hΓ)).2 ⟨t, left'', right'', n₃, hop, hwl, hwr, rfl⟩
      exact ⟨_, _, ⟨left', n₁, hrunl, right', n₂, hrunr, hfinish⟩, rfl⟩

theorem Finds.assign {target value : Expr} (hΓ : env.scope.Proper) (ht : Finds env target)
    (hv : Finds env value) : Finds env (.assign info target value) := by
  intro n t
  simp only [runs_assign]
  constructor
  · rintro ⟨e', n', ⟨hl, target', n₁, value', n₂, hrunt, hrunv, hfinish⟩, rfl⟩
    have ha := ht.sound hrunt
    have hb := hv.sound hrunv
    obtain ⟨_, hstores, -, rfl⟩ := (runs_finishAssign (ha.proper hΓ) (hb.proper hΓ)).1 hfinish
    exact .assign hl ha hb hstores
  · intro h
    cases h with
    | assign hl ha hb hstores =>
      obtain ⟨target', n₁, hrunt, rfl⟩ := ht.complete ha n
      obtain ⟨value', n₂, hrunv, rfl⟩ := hv.complete hb n₁
      obtain ⟨value'', n₃, hw⟩ := Widened.exists n₂ value' (target'.type.needsIntToFloat value'.type)
      have hfinish : (finishAssign info target' value').Runs n₂ _ n₃ :=
        (runs_finishAssign (ha.proper hΓ) (hb.proper hΓ)).2 ⟨value'', hstores, hw, rfl⟩
      exact ⟨_, _, ⟨hl, target', n₁, value', n₂, hrunt, hrunv, hfinish⟩, rfl⟩

/-- Arguments are accepted exactly if there are enough of them and they may be passed. -/
theorem runs_checkArgs_iff {args : List Expr} (hΓ : env.scope.Proper) (hargs : ∀ a ∈ args, Finds env a) :
    ∀ {params : List Ty}, (∀ p ∈ params, p.Proper) → ∀ n,
      ((∃ args' n', (checkArgs env params args).Runs n args' n') ∧ params.length ≤ args.length) ↔
        HaveTypes env.scope args params := by
  induction args with
  | nil =>
    intro params _ n
    simp only [checkArgs, runs_pure, List.length_nil, Nat.le_zero, List.length_eq_zero_iff]
    constructor
    · rintro ⟨-, rfl⟩
      exact .nil
    · rintro ⟨⟩
      exact ⟨⟨_, _, rfl, rfl⟩, rfl⟩
  | cons arg args ih =>
    intro params hparams n
    have harg : Finds env arg := hargs arg (by simp)
    replace ih := @ih fun a ha => hargs a (by simp [ha])
    simp only [runs_checkArgs_cons]
    constructor
    · rintro ⟨⟨_, n', param, rest, arg', n₁, arg'', n₂, args', rfl, hrun, hfits, -, hrest, rfl⟩, hlength⟩
      have ht := harg.sound hrun
      have hpass := (argumentFits_iff (hparams param (by simp)) (ht.proper hΓ)).1 hfits
      -- the arguments that follow are checked from another number of the next new expression
      have hrest := (ih (fun p hp => hparams p (by simp [hp])) n₂).1
        ⟨⟨args', n', hrest⟩, by simpa using hlength⟩
      exact .cons ht hpass hrest
    · intro h
      cases h with
      | @cons _ _ param t rest ht hpass hrest =>
        obtain ⟨arg', n₁, hrun, rfl⟩ := harg.complete ht n
        obtain ⟨arg'', n₂, hw⟩ := Widened.exists n₁ arg' (param.needsIntToFloat arg'.type)
        obtain ⟨⟨args', n', hrun'⟩, hlength⟩ := (ih (fun p hp => hparams p (by simp [hp])) n₂).2 hrest
        have hfits := (argumentFits_iff (hparams param (by simp)) (ht.proper hΓ)).2 hpass
        exact ⟨⟨_, n', param, rest, arg', n₁, arg'', n₂, args', rfl, hrun, hfits, hw, hrun', rfl⟩,
          by simpa using hlength⟩

theorem Finds.call {args : List Expr} (hΓ : env.scope.Proper) (hargs : ∀ a ∈ args, Finds env a) :
    Finds env (.call info ident args) := by
  intro n t
  simp only [runs_call]
  constructor
  · rintro ⟨e', n', ⟨hmain, d, ret, params, args', hd, hrun, hlength, rfl⟩, rfl⟩
    have hr := Env.retrieve_scope.2 ⟨d, hd⟩
    have hparams : ∀ p ∈ params, p.Proper := (hΓ _ _ hr).2
    exact .call hmain hr ((runs_checkArgs_iff hΓ hargs hparams n).1 ⟨⟨args', n', hrun⟩, hlength⟩)
  · intro h
    cases h with
    | @call _ _ _ _ params hmain hr hhave =>
      obtain ⟨d, hd⟩ := Env.retrieve_scope.1 hr
      have hparams : ∀ p ∈ params, p.Proper := (hΓ _ _ hr).2
      obtain ⟨⟨args', n', hrun⟩, hlength⟩ := (runs_checkArgs_iff hΓ hargs hparams n).2 hhave
      exact ⟨_, _, ⟨hmain, d, t, params, args', hd, hrun, hlength, rfl⟩, rfl⟩

/-- The check of expressions decides the judgement of types. -/
theorem finds (hΓ : env.scope.Proper) (he : e.Plain) : Finds env e := by
  induction he with
  | binary _ _ hl hr => exact .binary hΓ hl hr
  | unary _ ho => exact .unary hΓ ho
  | assign _ _ ht hv => exact .assign hΓ ht hv
  | var => exact .var
  | arrayAccess _ hindex => exact .arrayAccess hΓ hindex
  | call _ hargs => exact .call hΓ hargs
  | literal => exact .literal

/-- Nothing but a name is checked differently as a whole statement. -/
theorem checkExpr_whole (h : ¬ ∃ info ident, e = .var info ident) : checkExpr env true e = checkExpr env false e := by
  cases e <;> first
    | exact absurd ⟨_, _, rfl⟩ h
    | simp only [checkExpr]

/-- Where an expression is a whole statement the check runs exactly if the expression may stand there. -/
theorem runs_whole_iff (hΓ : env.scope.Proper) (he : e.Plain) (n : Nat) :
    (∃ e' n', (checkExpr env true e).Runs n e' n') ↔ Stands env.scope e := by
  by_cases hvar : ∃ info ident, e = .var info ident
  · obtain ⟨info, ident, rfl⟩ := hvar
    simp only [checkExpr, runs_checkVar]
    constructor
    · rintro ⟨_, _, ⟨d, s | ⟨ret, params⟩⟩, t, hd, -, -⟩
      · exact .value (.var (Env.retrieve_scope.2 ⟨d, hd⟩))
      · exact .function (Env.retrieve_scope.2 ⟨d, hd⟩)
    · rintro (h | h)
      · obtain ⟨⟩ := h
        rename_i t hr
        obtain ⟨d, hd⟩ := Env.retrieve_scope.1 hr
        exact ⟨_, _, _, t, hd, rfl, rfl, rfl⟩
      · obtain ⟨d, hd⟩ := Env.retrieve_scope.1 h
        exact ⟨_, _, _, _, hd, ⟨rfl, rfl⟩, rfl, rfl⟩
  · rw [checkExpr_whole hvar]
    constructor
    · rintro ⟨e', n', hrun⟩
      exact .value ((finds hΓ he).sound hrun)
    · rintro (h | h)
      · obtain ⟨e', n', hrun, -⟩ := (finds hΓ he).complete h n
        exact ⟨e', n', hrun⟩
      · exact absurd ⟨_, _, rfl⟩ hvar

end Judgement

end Typing

end VCLang
