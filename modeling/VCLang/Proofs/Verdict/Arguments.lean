/-
The arguments of calls. Each is checked once and in order, and the errors about arguments are those that the numbers
and the types of the arguments and the parameters call for: the first argument that is too many, a call with too
few, and the arguments that their parameters do not take.
-/
import VCLang.Proofs.Verdict.Program
namespace VCLang

open Typing

/-! ## Parameters -/

/-- An argument of a type may be passed for a parameter: it is wrong already, or could be stored, or both are
arrays and the elements of the one could be stored as elements of the other. -/
def Ty.Takes (param arg : Ty) : Prop :=
  arg = .error ∨ param.assignable arg = true ∨
    ∃ expected m found n, param = .array expected m ∧ arg = .array found n ∧ expected.assignable found = true

theorem argumentFits_iff_takes {param arg : Ty} : argumentFits param arg = true ↔ param.Takes arg := by
  cases param <;> cases arg <;> simp [argumentFits, Ty.Takes, Ty.assignable]

instance (param arg : Ty) : Decidable (param.Takes arg) := decidable_of_iff _ argumentFits_iff_takes

/-- An argument is converted exactly if it is an `int` for a `float`. -/
theorem argumentRulingAt_eq_accept {params : List Ty} {i : Nat} {arg : Ty} :
    argumentRulingAt params i arg = .accept true ↔ params[i]? = some .float ∧ arg = .int := by
  unfold argumentRulingAt
  split
  · rename_i param hparam
    rw [hparam, Option.some.injEq, ← needsIntToFloat_iff]
    constructor
    · intro h
      unfold argumentRuling at h
      split_ifs at h
      exact Ruling.accept.inj h
    · intro h
      obtain ⟨rfl, rfl⟩ := needsIntToFloat_iff.1 h
      rfl
  · rename_i hnone
    rw [hnone]
    split_ifs <;> simp

/-! ## Calls -/

/-- A call of a function: the arguments, and what the function is declared with. -/
structure FunctionCall where
  info : ExprInfo
  args : List Expr
  ret : Ty
  params : List Ty

namespace FunctionCall

/-- The first argument behind the last parameter. -/
def tooMany (c : FunctionCall) : List Error :=
  (c.args[c.params.length]?).toList.map fun arg => ⟨.tooManyArguments, arg.span⟩

def tooFew (c : FunctionCall) : List Error :=
  if c.args.length < c.params.length then [⟨.tooFewArguments, c.info.span⟩] else []

/-- The arguments that their parameters do not take, where the expressions are of the given types. -/
def wrong (c : FunctionCall) (τ : ExprId → Ty) : List Error :=
  ((c.params.zip c.args).filter fun x => ¬ x.1.Takes (τ x.2.id)).map fun x => ⟨.wrongArgumentType, x.2.span⟩

/-- All errors about the arguments. -/
def errors (c : FunctionCall) (τ : ExprId → Ty) : List Error := argumentErrors c.params c.args c.info.span τ

end FunctionCall

/-- The call that an expression is, if its name is bound to a function behind a check. Of `main` there are none. -/
def Arena.functionCall? (b : Arena) : Expr → Option FunctionCall
  | .call info ident args =>
    if ident.spelling = "main" then none
    else
      match b.meaning? (.expr info.id) with
      | some (_, .func ret params) => some ⟨info, args, ret, params⟩
      | _ => none
  | _ => none

/-- The calls of functions in a program. -/
def Program.calls (p : Program) (b : Arena) : List FunctionCall := p.subexprs.filterMap b.functionCall?

/-! ## Errors of one call -/

section

variable {params : List Ty} {τ : ExprId → Ty}

/-- Behind the first argument that is too many nothing is reported. -/
theorem rowErrors_eq_nil {rule : Nat → Ty → Ruling Bool} {i : Nat} (h : ∀ j t, i ≤ j → rule j t = .silent)
    (es : List Expr) : rowErrors rule τ i es = [] := by
  induction es generalizing i with
  | nil => rfl
  | cons e es ih =>
    rw [rowErrors_cons, h i _ (Nat.le_refl i), ih fun j t hj => h j t (Nat.le_of_succ_le hj)]
    rfl

/-- The argument behind the last parameter, and all that come behind it. -/
theorem rowErrors_tooMany (args : List Expr) : rowErrors (argumentRulingAt params) τ params.length args =
    args.head?.toList.map fun arg => ⟨.tooManyArguments, arg.span⟩ := by
  cases args with
  | nil => rfl
  | cons arg args =>
    have hsilent (j : Nat) (t : Ty) (hj : params.length + 1 ≤ j) : argumentRulingAt params j t = .silent := by
      rw [argumentRulingAt, List.getElem?_eq_none (by omega)]
      exact if_neg (by omega)
    rw [rowErrors_cons, rowErrors_eq_nil hsilent, argumentRulingAt, List.getElem?_eq_none (Nat.le_refl _)]
    simp [Ruling.fault?]

/-- The errors of the arguments from an index on, with the parameters from there on. -/
theorem numbered_rowErrors {i : Nat} (hi : i ≤ params.length) (args : List Expr) :
    numbered 25 (rowErrors (argumentRulingAt params) τ i args) =
        (args[params.length - i]?).toList.map (fun arg => ⟨.tooManyArguments, arg.span⟩) ∧
      numbered 27 (rowErrors (argumentRulingAt params) τ i args) =
        (((params.drop i).zip args).filter fun x => ¬ x.1.Takes (τ x.2.id)).map
          fun x => ⟨.wrongArgumentType, x.2.span⟩ := by
  induction args generalizing i with
  | nil => simp
  | cons arg args ih =>
    rcases Nat.lt_or_eq_of_le hi with hlt | rfl
    · -- there is a parameter for the first argument
      obtain ⟨hmany, hwrong⟩ := ih hlt
      have hrule : argumentRulingAt params i (τ arg.id) = argumentRuling params[i] (τ arg.id) := by
        rw [argumentRulingAt, List.getElem?_eq_getElem hlt]
      have hindex : params.length - i = params.length - (i + 1) + 1 := by omega
      rw [rowErrors_cons, numbered_append, numbered_append, hmany, hwrong, hrule, hindex, List.getElem?_cons_succ,
        List.drop_eq_getElem_cons hlt, List.zip_cons_cons, List.filter_cons, argumentRuling]
      by_cases htakes : params[i].Takes (τ arg.id)
      · rw [if_pos (argumentFits_iff_takes.2 htakes)]
        simp [Ruling.fault?, htakes]
      · rw [if_neg fun h => htakes (argumentFits_iff_takes.1 h)]
        simp [Ruling.fault?, htakes, numbered, Fault.number?]
    · rw [rowErrors_tooMany]
      simp [numbered, Fault.number?]

end

namespace FunctionCall

variable {c : FunctionCall} {τ : ExprId → Ty}

theorem ofNumbers_tooFew (c : FunctionCall) : OfNumbers [26] c.tooFew := by
  unfold tooFew
  split_ifs
  · exact ofNumbers_some rfl (by simp)
  · exact ofNumbers_nil

theorem errors_eq : c.errors τ = rowErrors (argumentRulingAt c.params) τ 0 c.args ++ c.tooFew := rfl

theorem numbered_tooMany : numbered 25 (c.errors τ) = c.tooMany := by
  rw [errors_eq, numbered_append, (numbered_rowErrors (Nat.zero_le _) c.args).1,
    c.ofNumbers_tooFew.numbered_eq_nil (by simp), List.append_nil]
  rfl

theorem numbered_tooFew : numbered 26 (c.errors τ) = c.tooFew := by
  have hrow := ofNumbers_rowErrors (ofNumbers_argument c.params) τ 0 c.args
  rw [errors_eq, numbered_append, hrow.numbered_eq_nil (by simp), c.ofNumbers_tooFew.numbered_eq, List.nil_append]

theorem numbered_wrong : numbered 27 (c.errors τ) = c.wrong τ := by
  rw [errors_eq, numbered_append, (numbered_rowErrors (Nat.zero_le _) c.args).2,
    c.ofNumbers_tooFew.numbered_eq_nil (by simp), List.append_nil]
  rfl

end FunctionCall

/-! ## Where calls are checked -/

/-- An expression that is a call of a function is a call by its form. -/
theorem Arena.of_functionCall {b : Arena} {e : Expr} {c : FunctionCall} (h : b.functionCall? e = some c) :
    ∃ ident, e = .call c.info ident c.args ∧ ident.spelling ≠ "main" ∧
      ∃ name, b.meaning? (.expr c.info.id) = some (name, .func c.ret c.params) := by
  cases e with
  | call info ident args =>
    rw [functionCall?] at h
    split_ifs at h with hmain
    split at h
    · rename_i name ret params hmeaning
      cases h
      exact ⟨ident, rfl, hmain, name, hmeaning⟩
    · cases h
  | _ => cases h

/-- In the places of the arguments of a call stand the arguments or conversions of them. -/
theorem Arena.Frame.slots {a b : Arena} (hframe : a.Frame b) {id : ExprId} {ident ident' : Ident}
    {args args' : List ExprId} (ha : a.exprKind? id = some (.call ident args)) (hb : b.exprKind? id = some (.call ident' args')) :
    List.Forall₂ (a.Slot b) args args' := by
  obtain ⟨n, hn, hkind⟩ := Option.map_eq_some_iff.1 ha
  obtain ⟨n', hn', hkept⟩ := hframe.exprs id n hn
  obtain ⟨m, hm, hkind'⟩ := Option.map_eq_some_iff.1 hb
  cases hn'.symm.trans hm
  obtain ⟨t, -, hdecorates⟩ := hkept.kind
  rw [hkind, hkind'] at hdecorates
  cases hdecorates with
  | call _ hslots => exact hslots

namespace Typing

variable {options : Options} {p : Program} {a b : Arena} {vs all : List Visit} {v : Visit} {n : Nat}

/-- A call is checked as one of a function if and only if its name is bound to one behind the check. -/
theorem Visit.Fits.functionCall (hframe : a.Frame b) (h : v.Fits a b) (hran : v.Ran options)
    (hfresh : ∀ x, a.Holds x → x.Fresh) {whole : Bool} {info : ExprInfo} {ident : Ident} {args : List Expr}
    (hv : v.construct = .expr whole (.call info ident args)) :
    (∃ d ret params, ident.spelling ≠ "main" ∧
      v.place.env.retrieve ident.spelling = some ⟨d, .func ret params⟩ ∧
      b.functionCall? (.call info ident args) = some ⟨info, args, ret, params⟩) ∨
    b.functionCall? (.call info ident args) = none ∧
      ∀ τ, OfNumbers [5, 19, 29] (v.construct.ownErrors options v.place τ) := by
  rw [Arena.functionCall?]
  by_cases hmain : ident.spelling = "main"
  · refine .inr ⟨if_pos hmain, fun τ => ?_⟩
    rw [hv, Construct.ownErrors, Expr.verdict, if_pos hmain]
    exact ofNumbers_some (n := 29) rfl (by simp)
  have hmeaning := h.meaning hran hfresh hv rfl fun _ _ he => by
    cases he
    exact hmain
  rw [if_neg hmain, show info.id = (Expr.call info ident args).id from rfl, hmeaning]
  rcases hx : v.place.env.retrieve ident.spelling with _ | ⟨d, ty | ⟨ret, params⟩⟩
  · refine .inr ⟨rfl, fun τ => ?_⟩
    rw [hv, Construct.ownErrors, Expr.verdict, if_neg hmain, hx]
    exact ofNumbers_some (n := 5) rfl (by simp)
  · obtain ⟨s, hs, hiff⟩ := h.declared hframe hx
    refine .inr ⟨?_, fun τ => ?_⟩
    · rw [Option.bind_some, hs]
      cases s with
      | var ty => rfl
      | func ret params =>
        obtain ⟨ret', params', heq⟩ := hiff.2 ⟨ret, params, rfl⟩
        cases heq
    · rw [hv, Construct.ownErrors, Expr.verdict, if_neg hmain, hx]
      exact ofNumbers_some (n := 19) rfl (by simp)
  · refine .inl ⟨d, ret, params, hmain, rfl, ?_⟩
    rw [Option.bind_some, h.functions _ _ hx ⟨ret, params, rfl⟩]

/-- The errors about arguments are those of a call. -/
theorem Visit.Fits.numbered_arguments (hframe : a.Frame b) (h : v.Fits a b) (hran : v.Ran options)
    (hfresh : ∀ x, a.Holds x → x.Fresh) (hn : n ∈ [25, 26, 27]) (τ : ExprId → Ty) :
    numbered n (v.construct.ownErrors options v.place τ) =
      (v.construct.item.flatMap fun e => (b.functionCall? e).toList).flatMap fun c => numbered n (c.errors τ) := by
  simp only [List.mem_cons, List.not_mem_nil, or_false] at hn
  cases hv : v.construct with
  | expr whole e =>
    by_cases he : ∃ info ident args, e = .call info ident args
    · obtain ⟨info, ident, args, rfl⟩ := he
      have hitem : (Construct.expr whole (.call info ident args)).item = [.call info ident args] := rfl
      rw [hitem, List.flatMap_singleton, ← hv]
      rcases h.functionCall hframe hran hfresh hv with ⟨d, ret, params, hmain, hx, hcall⟩ | ⟨hnone, hown⟩
      · rw [hcall, hv, Construct.ownErrors, Expr.verdict, if_neg hmain, hx, Option.toList_some, List.flatMap_singleton]
        rfl
      · rw [hnone, (hown τ).numbered_eq_nil (by simp; omega)]
        rfl
    · simp only [not_exists] at he
      have hnone : (Construct.expr whole e).item.flatMap (fun e => (b.functionCall? e).toList) = [] := by
        rw [List.flatMap_eq_nil_iff]
        intro c hc
        obtain rfl := List.mem_singleton.1 (List.mem_of_mem_filter hc)
        cases c with
        | call info ident args => exact absurd rfl (he info ident args)
        | _ => rfl
      rw [hnone]
      exact (ofNumbers_verdict he).numbered_eq_nil (by simp; omega)
  | var d => exact (ofNumbers_var d _ τ).numbered_eq_nil (by simp; omega)
  | stmt s =>
    refine (ofNumbers_stmt options _ τ s).numbered_eq_nil ?_
    cases s <;> simp [Stmt.numbers] <;> omega
  | func f => exact (ofNumbers_function options _ f).numbered_eq_nil (by simp; omega)

/-- The errors about arguments in a program are those of its calls. -/
theorem Visited.numbered_calls (h : Visited options p vs all) (hframe : p.arena.Frame (check options p).1.arena)
    (hfresh : ∀ x, p.arena.Holds x → x.Fresh) (hn : n ∈ [25, 26, 27]) :
    (numbered n (check options p).2).Perm ((p.calls (check options p).1.arena).flatMap fun c =>
      numbered n (c.errors (check options p).1.arena.typeOf)) := by
  let b := (check options p).1.arena
  have hlists : p.calls b = (p.subexprs.filter (!·.isList)).flatMap fun e => (b.functionCall? e).toList := by
    rw [← List.filterMap_eq_flatMap_toList, List.filterMap_filter]
    refine List.filterMap_congr fun e _ => ?_
    cases e <;> rfl
  have hn' : 1 < n := by
    simp only [List.mem_cons, List.not_mem_nil, or_false] at hn
    omega
  refine (h.numbered_errors hn').trans ?_
  rw [List.flatMap_congr fun v hv => (h.fits v hv).numbered_arguments hframe (h.ran v hv) hfresh hn b.typeOf,
    ← List.flatMap_assoc, hlists, ← List.flatMap_assoc]
  exact (h.subexprs_perm.symm.flatMap_right _).flatMap_right _

/-! ## How a call is checked -/

/-- What a check makes of a call of a function. -/
structure CallMatched (a b : Arena) (c : FunctionCall) (v : Visit) : Prop where
  /-- The arguments are checked in a row, and nothing else is. -/
  checked : ∃ whole ident ident' args' more n', v.construct = .expr whole (.call c.info ident c.args) ∧
    v.result = .expr whole (.call (c.info.typed c.ret) ident' args') ∧
    ChecksRow v.place.env (argumentRulingAt c.params) 0 v.place.nextExpr c.args args' n' more ∧
    v.errors = more ++ c.tooFew
  type : b.type? c.info.id = some c.ret
  /-- In the place of an argument stands the argument, or its conversion if it is an `int` for a `float`. -/
  slots : ∃ ident' slots, b.exprKind? c.info.id = some (.call ident' slots) ∧ slots.length = c.args.length ∧
    ∀ (i : Nat) (arg : Expr) (slot : ExprId), c.args[i]? = some arg → slots[i]? = some slot → a.Slot b arg.id slot ∧
      (b.IsConversion slot ↔ c.params[i]? = some Ty.float ∧ b.type? arg.id = some .int)

/-- An argument is converted where its rule says so. -/
theorem ChecksRow.isConversion {env : Env} {params : List Ty} {m m' i : Nat} {args args' : List Expr} {arg arg' : Expr}
    {errors : List Error} {parent parent' : NodeId} (hframe : a.Frame b)
    (h : ChecksRow env (argumentRulingAt params) 0 m args args' m' errors) (harg : args[i]? = some arg)
    (harg' : args'[i]? = some arg') (ha : a.Has (arg.entries parent)) (hb : b.Has (arg'.entries parent')) :
    b.IsConversion arg'.id ↔ params[i]? = some .float ∧ b.type? arg.id = some .int := by
  obtain ⟨start, checked, stop, first, hends, hsettled⟩ := h.get harg harg'
  have helaborates := elaborates_checkExpr hends
  have htype {q : NodeId} (hb : b.Has (checked.entries q)) : b.type? arg.id = some checked.type := by
    rw [← helaborates.id, (Arena.Has.expr hb).2, helaborates.typed]
  rw [Nat.zero_add] at hsettled
  rcases hsettled with ⟨haccept, rfl⟩ | ⟨hne, rfl⟩
  · have hkind := (Arena.Has.expr hb).1
    rw [Expr.entries, Arena.has_append] at hb
    obtain ⟨hparam, hint⟩ := argumentRulingAt_eq_accept.1 haccept
    exact iff_of_true ⟨_, hkind⟩ ⟨hparam, by rw [htype hb.1, hint]⟩
  · have hbefore : arg.id.index < a.exprs.size :=
      (ha _ (Arena.entry_mem_entries arg parent) : a.Holds _).contains
    rw [htype hb, Option.some.injEq, helaborates.id]
    exact iff_of_false (hframe.not_isConversion hbefore) fun h => hne (argumentRulingAt_eq_accept.2 h)

/-- Each call of a function is checked somewhere. -/
theorem Visited.exists_call (h : Visited options p vs all) (hframe : p.arena.Frame (check options p).1.arena)
    (hfresh : ∀ x, p.arena.Holds x → x.Fresh) {c : FunctionCall} (hc : c ∈ p.calls (check options p).1.arena) :
    ∃ v ∈ all, CallMatched p.arena (check options p).1.arena c v := by
  obtain ⟨e, he, hcall⟩ := List.mem_filterMap.1 hc
  obtain ⟨ident, rfl, -, -⟩ := Arena.of_functionCall hcall
  obtain ⟨v, hv, whole, hconstruct⟩ := h.exists_visit he rfl
  have hfits := h.fits v hv
  obtain ⟨d, ret, params, hmain, hx, hcall'⟩ :=
    (hfits.functionCall hframe (h.ran v hv) hfresh hconstruct).resolve_right fun hnone => by
      cases hcall.symm.trans hnone.1
  obtain ⟨info, args, ret, params⟩ := c
  cases hcall.symm.trans hcall'
  obtain ⟨after, hends⟩ := h.ran v hv
  obtain ⟨parent, ha⟩ := hfits.source
  obtain ⟨parent', hb⟩ := hfits.result
  rw [hconstruct] at hends ha
  obtain ⟨e', he', hresult⟩ := Check.ends_map.1 hends
  obtain ⟨n', he', -⟩ := ends_onExpr.1 he'
  obtain ⟨args', more, hrow, rfl, herrors⟩ := ends_call hmain hx he'
  rw [hresult] at hb
  have hroot := Arena.Has.expr hb
  have hslots := hframe.slots (Arena.Has.expr ha).1 hroot.1
  rw [Construct.entries, Expr.entries_eq, Arena.has_append] at ha hb
  refine ⟨v, hv, ⟨_, _, _, args', more, n', hconstruct, hresult, hrow, herrors⟩, hroot.2, ident.bindTo d,
    args'.map Expr.id, hroot.1, by rw [List.length_map, hrow.length], fun i arg slot harg hslot => ?_⟩
  rw [List.getElem?_map] at hslot
  obtain ⟨arg', harg', rfl⟩ := Option.map_eq_some_iff.1 hslot
  refine ⟨?_, hrow.isConversion hframe harg harg' (ha.1.of_mem (List.mem_of_getElem? harg))
    (hb.1.of_mem (List.mem_of_getElem? harg'))⟩
  have hzip : ((args.map Expr.id).zip (args'.map Expr.id))[i]? = some (arg.id, arg'.id) := by
    rw [List.getElem?_zip_eq_some, List.getElem?_map, List.getElem?_map, harg, harg']
    exact ⟨rfl, rfl⟩
  exact List.forall₂_zip hslots (List.mem_of_getElem? hzip)

end Typing

/-- The calls of functions in a program are checked argument by argument, and the errors about arguments are those
that they call for. -/
structure ArgumentsMatched (p : Program) (b : Arena) (all : List Visit) (errors : List Error) : Prop where
  calls : ∀ c ∈ p.calls b, ∃ v ∈ all, CallMatched p.arena b c v
  tooMany : (numbered 25 errors).Perm ((p.calls b).flatMap FunctionCall.tooMany)
  tooFew : (numbered 26 errors).Perm ((p.calls b).flatMap FunctionCall.tooFew)
  wrong : (numbered 27 errors).Perm ((p.calls b).flatMap (·.wrong b.typeOf))

/-- Whatever else is wrong with what was parsed, all of it is visited, and the arguments of each call of a function
are matched with the parameters: each is checked once, in order, and converted where it is an `int` for a `float`;
the first that is too many, a call with too few and the arguments that do not fit are reported, and nothing else of
this kind; and the type of the call is that of the result. -/
theorem check_matches_arguments {source : String} {p : Program} (h : (parse source).result = .ok p)
    (options : Options) : ∃ vs all, Visited options p vs all ∧
      ArgumentsMatched p (check options p).1.arena all (check options p).2 := by
  obtain ⟨hplain, hnumbered⟩ := parse_built h
  have hcomplete := hnumbered.complete
  have hframe := frame_check options hplain hcomplete
  have hfresh : ∀ x, p.arena.Holds x → x.Fresh := fun x hx => parse_fresh h x ((hcomplete.holds_iff x).1 hx)
  obtain ⟨vs, all, hvisited⟩ := visited_check options hplain hcomplete
  refine ⟨vs, all, hvisited, fun c hc => hvisited.exists_call hframe hfresh hc, ?_, ?_, ?_⟩
  · refine (hvisited.numbered_calls hframe hfresh (n := 25) (by simp)).trans (.of_eq ?_)
    exact List.flatMap_congr fun c _ => FunctionCall.numbered_tooMany
  · refine (hvisited.numbered_calls hframe hfresh (n := 26) (by simp)).trans (.of_eq ?_)
    exact List.flatMap_congr fun c _ => FunctionCall.numbered_tooFew
  · refine (hvisited.numbered_calls hframe hfresh (n := 27) (by simp)).trans (.of_eq ?_)
    exact List.flatMap_congr fun c _ => FunctionCall.numbered_wrong

/-- An array for an array, an `int` that is converted, a name that is no function's in the place of the call, too
few arguments, and too many of which the first two do not fit. -/
theorem check_matches_arguments_mixed : ∃ source p, (parse source).result = .ok p ∧ ∃ vs all,
    Visited .standard p vs all ∧ ArgumentsMatched p (check .standard p).1.arena all (check .standard p).2 := by
  let source := "int f(float x, int a[]){int g; g(1); f(2, a); f(3); return f(true, 1.5, y, f);} int main(){return 0;}"
  have hparses : (parse source).result.isOk = true := by decide +kernel
  obtain ⟨p, hp⟩ := exists_of_isOk hparses
  exact ⟨source, p, hp, check_matches_arguments hp .standard⟩

end VCLang
