/-
The nodes of checked expressions. Where the check of an expression reports nothing every node of the result
is right, in any flat form that holds these nodes and in which the declarations say of the names in scope
what the check knows of them.
-/
import Mathlib.Data.List.Forall2
import VCLang.Proofs.Arena.Placed
import VCLang.Proofs.Arena.WellTyped
import VCLang.Proofs.Typing.Expression
namespace VCLang

open Static

theorem Ty.SameButSize.of_array {element t : Ty} {size : Option Nat} (h : Ty.SameButSize (.array element size) t) :
    ∃ m, t = .array element m := by
  cases h with
  | same => exact ⟨_, rfl⟩
  | size => exact ⟨_, rfl⟩

theorem isFunction_kind (d : VarDecl) : d.kind.isFunction = false := by
  unfold VarDecl.kind
  split <;> rfl

namespace Arena

variable {src a : Arena} {env : Env}

/-! ## Nodes of a flat form -/

theorem entry_mem_entries (e : Expr) (parent : NodeId) : e.entry parent ∈ e.entries parent := by
  cases e <;> simp [Expr.entries]

/-- What a flat form says of an expression whose nodes it holds. -/
theorem Has.expr {e : Expr} {parent : NodeId} (h : a.Has (e.entries parent)) :
    a.exprKind? e.id = some e.kind ∧ a.type? e.id = e.info.ty := by
  have hroot : a.expr? e.id = some (e.node parent) := h _ (entry_mem_entries e parent)
  rw [exprKind?, type?, hroot]
  exact ⟨rfl, rfl⟩

/-- A node is right where it stands. -/
def RightNode (src a : Arena) : Entry → Prop
  | .expr id n => ∃ t, n.ty = some t ∧ t.Proper ∧ Types src a id n.kind t
  | .stmt id _ => ∃ d f inLoop, a.decl? d = some f ∧ f.kind.isFunction = true ∧ a.Right (site f) inLoop id
  | .decl _ n => a.RightDecl n

/-- All of some nodes are right. -/
def AllRight (src a : Arena) (es : List Entry) : Prop := ∀ x ∈ es, RightNode src a x

theorem allRight_nil : AllRight src a [] := by simp [AllRight]

theorem allRight_append {es fs : List Entry} :
    AllRight src a (es ++ fs) ↔ AllRight src a es ∧ AllRight src a fs := List.forall_mem_append

theorem allRight_entry {e : Expr} {parent : NodeId} {t : Ty} (hty : e.info.ty = some t) (ht : t.Proper)
    (h : Types src a e.id e.kind t) : AllRight src a [e.entry parent] := by
  intro x hx
  rw [List.mem_singleton] at hx
  subst hx
  exact ⟨t, hty, ht, h⟩

/-- The nodes of an expression are right wherever a flat form holds them. -/
def Sound (src a : Arena) (e : Expr) : Prop :=
  ∀ ⦃parent⦄, a.Has (e.entries parent) → AllRight src a (e.entries parent)

/-! ## Names in scope -/

/-- A declaration of a name says what is known of it. -/
inductive Backs (a : Arena) (name : String) : Binding → Prop
  | var {d : DeclId} {n : DeclNode} {t : Ty} : a.decl? d = some n → n.ident.spelling = name →
    n.kind.isFunction = false → t.SameButSize n.ty → Backs a name ⟨d, .var t⟩
  | func {d : DeclId} {n : DeclNode} {params : List DeclId} {types : List Ty} {body : Option StmtId}
    {hasReturn : Bool} : a.decl? d = some n → n.ident.spelling = name → n.kind = .func params body hasReturn →
    List.Forall₂ (fun p t => ∃ m, a.decl? p = some m ∧ m.ty = t) params types → Backs a name ⟨d, .func n.ty types⟩

/-- Of every name in scope its declaration says what is known. -/
def Agrees (a : Arena) (env : Env) : Prop := ∀ name b, env.retrieve name = some b → a.Backs name b

theorem Agrees.insert (h : a.Agrees env) {name : String} {b : Binding} (hb : a.Backs name b) :
    a.Agrees (env.insert name b) := by
  intro other c hc
  rcases Scopes.of_retrieve_insert hc with ⟨rfl, rfl⟩ | hc
  · exact hb
  · exact h other c hc

theorem Agrees.openScope (h : a.Agrees env) : a.Agrees env.openScope := by
  intro name b hb
  rw [Scopes.retrieve_openScope] at hb
  exact h name b hb

theorem boundTo {ident : Ident} {d : DeclId} {n : DeclNode} (hd : a.decl? d = some n)
    (hname : n.ident.spelling = ident.spelling) : a.BoundTo (ident.bindTo d) n := ⟨d, rfl, hd, hname⟩

end Arena

/-! ## Operators over converted operands -/

theorem taggedUnary_of {op : String} {s t : Ty} (h : UnaryOp op s t) : TaggedUnary op (.of s) s t := by
  cases h with
  | not => exact .not
  | sign hop ht =>
    simp only [List.mem_cons, List.not_mem_nil, or_false] at ht
    rcases ht with rfl | rfl
    · exact .sign hop
    · exact .sign hop

/-- Both operands of a binary operator have the one type of its tag behind the conversions. -/
theorem taggedBinary_of {op : String} {a b t : Ty} (h : BinaryOp op a b t) :
    ∃ s, TaggedBinary op (Unified.of a b).tag s t ∧ a.widened (Unified.of a b).widenLeft = s ∧
      b.widened (Unified.of a b).widenRight = s := by
  have hcommon {a b t : Ty} (hc : Common a b t) : (Unified.of a b).tag.type = t ∧
      a.widened (Unified.of a b).widenLeft = t ∧ b.widened (Unified.of a b).widenRight = t := by
    cases hc <;> exact ⟨rfl, rfl, rfl⟩
  cases h with
  | arithmetic hop hc =>
    obtain ⟨htag, hleft, hright⟩ := hcommon hc
    refine ⟨t, ?_, hleft, hright⟩
    rw [← htag]
    exact .arithmetic hop
  | relational hop hc =>
    obtain ⟨htag, hleft, hright⟩ := hcommon hc
    exact ⟨_, .relational hop, hleft.trans htag.symm, hright.trans htag.symm⟩
  | equality hop hc =>
    obtain ⟨htag, hleft, hright⟩ := hcommon hc
    exact ⟨_, .equality hop, hleft.trans htag.symm, hright.trans htag.symm⟩
  | equalityBoolean hop => exact ⟨.boolean, .equalityBoolean hop, rfl, rfl⟩
  | logical hop => exact ⟨.boolean, .logical hop, rfl, rfl⟩

theorem widened_of_stores {t s : Ty} (h : Stores t s) : s.widened (t.needsIntToFloat s) = t := by
  cases h with
  | same => cases t <;> rfl
  | widened => rfl

theorem isArray_of_stores {t s : Ty} (h : Stores t s) : t.isArray = false := by
  cases h with
  | same ht => exact ht
  | widened => rfl

/-- What is passed is of the type of the parameter behind the conversion, unless it is an array. -/
theorem passedAs_of {t s : Ty} (h : Passes t s) : PassedAs t (s.widened (t.needsIntToFloat s)) := by
  cases h with
  | scalar h =>
    rw [widened_of_stores h]
    exact .scalar (isArray_of_stores h)
  | array h => exact .array h

namespace Typing

open Arena Check

variable {src a : Arena} {env : Env} {n n' : Nat} {e e' : Expr}

/-! ## Conversions -/

theorem Widened.typed {needed : Bool} (h : Widened n e needed e' n') (he : e.info.ty = some e.type) :
    e'.info.ty = some (e.type.widened needed) := by
  cases h with
  | keep => exact he
  | widen => rfl

/-- A conversion is right over an `int`. -/
theorem Widened.sound {needed : Bool} (h : Widened n e needed e' n') (he : e.info.ty = some e.type)
    (hint : needed = true → e.type = .int) (hsound : Sound src a e) : Sound src a e' := by
  cases h with
  | keep => exact hsound
  | widen =>
    -- the conversion has taken the place of the expression, which is under it now
    intro parent ha
    rw [Expr.entries, has_append] at ha
    rw [Expr.entries, allRight_append]
    refine ⟨hsound ha.1, allRight_entry rfl trivial (.intToFloat ?_)⟩
    rw [ha.1.expr.2, he, hint rfl]

/-- A checked expression that is converted where it is needed. -/
theorem sound_converted {t : Ty} (hrun : e.info.ty = some e.type)
    (hw : Widened n e (t.needsIntToFloat e.type) e' n') (hsound : Sound src a e) : Sound src a e' :=
  hw.sound hrun (fun hneeded => (needsIntToFloat_iff.1 hneeded).2) hsound

/-! ## Expressions -/

/-- The check of an expression leaves nodes that are right. -/
def ChecksSoundly (src a : Arena) (env : Env) (e : Expr) : Prop :=
  ∀ ⦃n e' n' parent⦄, (checkExpr env false e).Runs n e' n' → src.Has (e.entries parent) → Sound src a e'

/-- The arguments of a call are right, and each is passed for its parameter. -/
theorem sound_args {args : List Expr} (hΓ : env.scope.Proper) (hplain : ∀ e ∈ args, e.Plain)
    (hargs : ∀ e ∈ args, ChecksSoundly src a env e) {parent : NodeId}
    (hs : src.Has (args.flatMap (Expr.entries parent))) :
    ∀ {params n args' n'}, (∀ p ∈ params, p.Proper) → params.length ≤ args.length →
      (checkArgs env params args).Runs n args' n' →
      (∀ e ∈ args', Sound src a e) ∧
        List.Forall₂ (fun p e => ∃ t, e.info.ty = some t ∧ PassedAs p t) params args' := by
  induction args with
  | nil =>
    intro params n args' n' _ hlength hrun
    rw [checkArgs, runs_pure] at hrun
    obtain ⟨rfl, -⟩ := hrun
    obtain rfl : params = [] := List.length_eq_zero_iff.1 (Nat.le_zero.1 hlength)
    exact ⟨by simp, .nil⟩
  | cons arg args ih =>
    intro params n out n' hparams hlength hrun
    obtain ⟨param, rest, arg', n₁, arg'', n₂, args', rfl, harg, hfits, hw, hrest, rfl⟩ := runs_checkArgs_cons.1 hrun
    rw [List.flatMap_cons, has_append] at hs
    have hty := (root_checkExpr harg).typed
    have hpasses : Passes param arg'.type := by
      have ht := (finds hΓ (hplain arg (by simp))).sound harg
      exact (argumentFits_iff (hparams param (by simp)) (ht.proper hΓ)).1 hfits
    have hfirst := sound_converted hty hw (hargs arg (by simp) harg hs.1)
    obtain ⟨hall, hpassed⟩ := ih (fun e he => hplain e (by simp [he])) (fun e he => hargs e (by simp [he])) hs.2
      (fun p hp => hparams p (by simp [hp])) (by simpa using hlength) hrest
    refine ⟨List.forall_mem_cons.2 ⟨hfirst, hall⟩, .cons ⟨_, hw.typed hty, passedAs_of hpasses⟩ hpassed⟩

/-- The types of parameters are those of their declarations, to which the arguments are passed. -/
theorem passed_args {ids : List DeclId} {types : List Ty} {args : List Expr} {parent : NodeId}
    (hids : List.Forall₂ (fun p t => ∃ m, a.decl? p = some m ∧ m.ty = t) ids types)
    (hargs : List.Forall₂ (fun p e => ∃ t, e.info.ty = some t ∧ PassedAs p t) types args)
    (ha : a.Has (args.flatMap (Expr.entries parent))) :
    List.Forall₂ (fun p arg => ∃ m t, a.decl? p = some m ∧ a.type? arg = some t ∧ PassedAs m.ty t) ids
      (args.map Expr.id) := by
  induction hids generalizing args with
  | nil =>
    cases hargs
    exact .nil
  | cons hp _ ih =>
    cases hargs with
    | cons harg hargs =>
      rw [List.flatMap_cons, has_append] at ha
      obtain ⟨m, hm, rfl⟩ := hp
      obtain ⟨t, ht, hpassed⟩ := harg
      exact .cons ⟨m, t, hm, ha.1.expr.2.trans ht, hpassed⟩ (ih hargs ha.2)

theorem sound_call {info : ExprInfo} {ident : Ident} {args : List Expr} (hΓ : env.scope.Proper) (hA : a.Agrees env)
    (hplain : ∀ e ∈ args, e.Plain) (hargs : ∀ e ∈ args, ChecksSoundly src a env e) :
    ChecksSoundly src a env (.call info ident args) := by
  intro n e' n' parent hrun hs parent' ha
  obtain ⟨hmain, d, ret, params, args', hd, hruna, hlength, rfl⟩ := runs_call.1 hrun
  rw [Expr.entries, Expr.entriesAll_eq, has_append] at hs ha
  rw [Expr.entries, Expr.entriesAll_eq, allRight_append]
  obtain ⟨hret, hparams⟩ : ret.Proper ∧ ∀ p ∈ params, p.Proper := hΓ _ _ (Env.retrieve_scope.2 ⟨d, hd⟩)
  obtain ⟨hall, hpassed⟩ := sound_args hΓ hplain hargs hs.1 hparams hlength hruna
  constructor
  · intro x hx
    obtain ⟨arg, harg, hx⟩ := List.mem_flatMap.1 hx
    exact hall arg harg (ha.1.of_mem harg) x hx
  · cases hA _ _ hd with
    | func hn hname hkind hids =>
      exact allRight_entry rfl hret (.call hmain (boundTo hn hname) hkind (passed_args hids hpassed ha.1))

theorem sound_binary {info : ExprInfo} {op : Operator} {left right : Expr} (hΓ : env.scope.Proper)
    (hl : left.Plain) (hr : right.Plain) (ihl : ChecksSoundly src a env left) (ihr : ChecksSoundly src a env right) :
    ChecksSoundly src a env (.binary info op left right) := by
  intro n e' n' parent hrun hs parent' ha
  have hsource : src.exprKind? info.id = some (.binary op left.id right.id) := hs.expr.1
  simp only [checkExpr, runs_bind] at hrun
  obtain ⟨left', n₁, hrunl, right', n₂, hrunr, hfinish⟩ := hrun
  have hleft := ((finds hΓ hl).sound hrunl).proper hΓ
  have hright := ((finds hΓ hr).sound hrunr).proper hΓ
  obtain ⟨t, left'', right'', n₃, hop, hwl, hwr, rfl⟩ := (runs_finishBinary hleft hright).1 hfinish
  rw [Expr.entries, has_append, has_append] at hs ha
  rw [Expr.entries, allRight_append, allRight_append]
  have htyl := (root_checkExpr hrunl).typed
  have htyr := (root_checkExpr hrunr).typed
  have hsl := hwl.sound htyl int_of_unified.1 (ihl hrunl hs.1.1)
  have hsr := hwr.sound htyr int_of_unified.2 (ihr hrunr hs.1.2)
  obtain ⟨s, htag, hsleft, hsright⟩ := taggedBinary_of hop
  -- the operands have the type of the tag behind their conversions
  have hfinal : a.type? left''.id = some s ∧ a.type? right''.id = some s := by
    rw [ha.1.1.expr.2, ha.1.2.expr.2, hwl.typed htyl, hwr.typed htyr, hsleft, hsright]
    exact ⟨rfl, rfl⟩
  refine ⟨⟨hsl ha.1.1, hsr ha.1.2⟩, ?_⟩
  exact allRight_entry rfl hop.proper (.binary hsource htag hfinal.1 hfinal.2)

theorem sound_assign {info : ExprInfo} {target value : Expr} (hΓ : env.scope.Proper) (ht : target.Plain)
    (hv : value.Plain) (iht : ChecksSoundly src a env target) (ihv : ChecksSoundly src a env value) :
    ChecksSoundly src a env (.assign info target value) := by
  intro n e' n' parent hrun hs parent' ha
  obtain ⟨hl, target', n₁, value', n₂, hrunt, hrunv, hfinish⟩ := runs_assign.1 hrun
  have htarget := ((finds hΓ ht).sound hrunt).proper hΓ
  have hvalue := ((finds hΓ hv).sound hrunv).proper hΓ
  obtain ⟨value'', hstores, hw, rfl⟩ := (runs_finishAssign htarget hvalue).1 hfinish
  rw [Expr.entries, has_append, has_append] at hs ha
  rw [Expr.entries, allRight_append, allRight_append]
  have htyt := (root_checkExpr hrunt).typed
  have htyv := (root_checkExpr hrunv).typed
  have hlvalue : target'.isLvalue = true := (root_checkExpr hrunt).isLvalue.trans hl
  have htarget' : a.type? target'.id = some target'.type := by rw [ha.1.1.expr.2, htyt]
  have hvalue'' : a.type? value''.id = some target'.type := by
    rw [ha.1.2.expr.2, hw.typed htyv, widened_of_stores hstores]
  refine ⟨⟨iht hrunt hs.1.1 ha.1.1, sound_converted htyv hw (ihv hrunv hs.1.2) ha.1.2⟩, ?_⟩
  exact allRight_entry rfl htarget
    (.assign ha.1.1.expr.1 hlvalue htarget' hvalue'' (isArray_of_stores hstores))

/-- The check of an expression leaves nodes that are right. -/
theorem checksSoundly (hΓ : env.scope.Proper) (hA : a.Agrees env) (he : e.Plain) : ChecksSoundly src a env e := by
  induction he with
  | binary hl hr ihl ihr => exact sound_binary hΓ hl hr ihl ihr
  | @unary info op operand ho ih =>
    intro n e' n' parent hrun hs parent' ha
    have hsource : src.exprKind? info.id = some (.unary op operand.id) := hs.expr.1
    simp only [checkExpr, runs_bind] at hrun
    obtain ⟨operand', n₁, hruno, hfinish⟩ := hrun
    have hoperand := ((finds hΓ ho).sound hruno).proper hΓ
    obtain ⟨t, hop, rfl, -⟩ := (runs_finishUnary hoperand).1 hfinish
    rw [Expr.entries, has_append] at hs ha
    rw [Expr.entries, allRight_append]
    refine ⟨ih hruno hs.1 ha.1, allRight_entry rfl hop.proper (.unary hsource (taggedUnary_of hop) ?_)⟩
    rw [ha.1.expr.2, (root_checkExpr hruno).typed]
  | assign ht hv iht ihv => exact sound_assign hΓ ht hv iht ihv
  | @var info ident =>
    intro n e' n' parent hrun _ parent' _
    rw [checkExpr, runs_checkVar] at hrun
    obtain ⟨⟨d, s | ⟨ret, params⟩⟩, t, hd, hmeans, rfl, -⟩ := hrun
    · obtain rfl : t = s := hmeans
      cases hA _ _ hd with
      | var hn hname hvar hsize =>
        have ht : t.Proper := hΓ _ _ (Env.retrieve_scope.2 ⟨d, hd⟩)
        exact allRight_entry rfl ht (.var (boundTo hn hname) hvar hsize)
    · cases hmeans.1
  | @arrayAccess info ident index hindex ih =>
    intro n e' n' parent hrun hs parent' ha
    simp only [checkExpr, runs_bind, runs_checkAccess] at hrun
    obtain ⟨index', n₁, hruni, ⟨d, s⟩, element, hd, helement, hfault, rfl, -⟩ := hrun
    obtain ⟨size, rfl⟩ := Signature.element?_iff.1 helement
    have hproper := ((finds hΓ hindex).sound hruni).proper hΓ
    have hint := (subscriptFault?_iff hproper).1 hfault
    rw [Expr.entries, has_append] at hs ha
    rw [Expr.entries, allRight_append]
    refine ⟨ih hruni hs.1 ha.1, ?_⟩
    have htype : a.type? index'.id = some .int := by
      rw [ha.1.expr.2, (root_checkExpr hruni).typed, hint]
    have ht : element.Proper := hΓ _ _ (Env.retrieve_scope.2 ⟨d, hd⟩)
    cases hA _ _ hd with
    | @var _ n _ hn hname hvar hsize =>
      -- in the initial value of an array its size may not be known yet, but its elements are
      obtain ⟨m, hm⟩ := hsize.of_array
      exact allRight_entry rfl ht (.arrayAccess (boundTo hn hname) hvar hm htype)
  | call hplain ih => exact sound_call hΓ hA hplain ih
  | literal =>
    intro n e' n' parent hrun _ parent' _
    have hproper := ((finds hΓ .literal).sound hrun).proper hΓ
    rw [checkExpr, runs_pure] at hrun
    obtain ⟨rfl, -⟩ := hrun
    exact allRight_entry rfl hproper (.literal (literalType_right _))

/-- An expression that is a whole statement is right in it. -/
theorem sound_whole {parent : NodeId} (hrun : (checkExpr env true e).Runs n e' n') (hΓ : env.scope.Proper)
    (hA : a.Agrees env) (he : e.Plain) (hs : src.Has (e.entries parent))
    (hstmt : ∃ s, a.stmtKind? s = some (.exprStmt e'.id)) : Sound src a e' := by
  by_cases hvar : ∃ info ident, e = .var info ident
  · obtain ⟨info, ident, rfl⟩ := hvar
    obtain ⟨s, hstmt⟩ := hstmt
    rw [checkExpr, runs_checkVar] at hrun
    obtain ⟨⟨d, sig⟩, t, hd, hmeans, rfl, -⟩ := hrun
    have hsig := hΓ _ _ (Env.retrieve_scope.2 ⟨d, hd⟩)
    intro parent' _
    cases hA _ _ hd with
    | var hn hname hkind hsize =>
      obtain rfl : t = _ := hmeans
      exact allRight_entry rfl hsig (.var (boundTo hn hname) hkind hsize)
    | func hn hname hkind _ =>
      obtain rfl : t = _ := hmeans.2
      exact allRight_entry rfl hsig.1 (.function (boundTo hn hname) (by rw [hkind]; rfl) hstmt)
  · rw [checkExpr_whole hvar] at hrun
    exact checksSoundly hΓ hA he hrun hs

end Typing

end VCLang
