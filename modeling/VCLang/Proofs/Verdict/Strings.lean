/-
Where strings can stand in a program that is not wrong: as arguments for the string parameters of library functions,
and where nothing is asked of a value.
-/
import VCLang.Proofs.Lockstep.Renaming
import VCLang.Proofs.Verdict.Arguments
import VCLang.Proofs.Verdict.Contagion
import VCLang.Proofs.Verdict.Forms
namespace VCLang

open Typing

variable {options : Options} {p : Program} {env : Env} {whole : Bool} {k : Checker} {τ : ExprId → Ty}

/-! ## Nothing is wrong with a construct -/

@[simp] theorem reported_eq_nil {f : Option Fault} {span : Span} : reported f span = [] ↔ f = none := by
  cases f <;> simp

/-- What a rule has said of, and nothing is wrong with, is accepted. -/
theorem Ruling.accepted {α : Type} {r : Ruling α} (h : r.fault? = none) (hsilent : r ≠ .silent) :
    ∃ a, r = .accept a := by
  cases r with
  | accept a => exact ⟨a, rfl⟩
  | reject f => cases h
  | silent => exact absurd rfl hsilent

theorem unaryRuling_silent {op : String} {t : Ty} (h : unaryRuling op t = .silent) : t = .error := by
  unfold unaryRuling at h
  split at h <;> (try split_ifs at h) <;> first
    | rfl
    | cases h

theorem binaryRuling_silent {op : String} {s t : Ty} {left right : String}
    (h : binaryRuling op s t left right = .silent) : s = .error ∨ t = .error := by
  unfold binaryRuling at h
  split_ifs at h with herror
  · cases s <;> cases t <;> first
      | exact .inl rfl
      | exact .inr rfl
      | cases herror
  · split at h <;> cases h

theorem assignRuling_ne_silent (s t : Ty) (name : String) : assignRuling s t name ≠ .silent := by
  unfold assignRuling storeRuling
  split_ifs <;> simp

/-! ## Nothing takes a string -/

/-- A type that is declared takes no string. -/
theorem Ty.Declared.assignable_string {t : Ty} (h : t.Declared) : t.assignable .string = false := by
  cases h <;> rfl

theorem storeRuling_string {t : Ty} (h : t.Declared) (f : Fault) : storeRuling f t .string = .reject f := by
  rw [storeRuling, h.assignable_string]
  rfl

theorem binaryRuling_string {op : String} {s t : Ty} {left right : String} (hs : s ≠ .error) (ht : t ≠ .error)
    (h : s = .string ∨ t = .string) : (binaryRuling op s t left right).fault? ≠ none := by
  have herror : (s.isError || t.isError) = false := by
    cases s <;> cases t <;> simp_all [Ty.isError]
  have hstring : (s.isString || t.isString) = true := by
    rcases h with rfl | rfl <;> simp [Ty.isString]
  rw [binaryRuling, if_neg (by simp [herror])]
  split_ifs <;> simp [Ruling.fault?]

theorem assignRuling_string {t : Ty} (herror : t ≠ .error) (hstring : t ≠ .string) (name : String) :
    (assignRuling t .string name).fault? ≠ none := by
  cases t <;> simp_all [assignRuling, storeRuling, Ty.isArray, Ty.assignable, Ruling.fault?]

theorem rowErrors_eq_nil_iff {rule : Nat → Ty → Ruling Bool} {es : List Expr} : rowErrors rule τ 0 es = [] ↔
    ∀ i e, es[i]? = some e → (rule i (τ e.id)).fault? = none := by
  simp only [rowErrors, List.flatMap_eq_nil_iff, reported_eq_nil, Prod.forall, List.mem_zipIdx_iff_getElem?]
  exact ⟨fun h i e hi => h e i hi, fun h e i hi => h i e hi⟩

namespace Expr

variable {e c : Expr}

/-- Where nothing is wrong with an expression that is no list, it has a type if its parts have one. -/
theorem verdict_ne_error (he : e.Plain) (henv : env.Declared (Library.prototypesFor p))
    (hparts : ∀ c ∈ e.children, τ c.id ≠ .error) (hclean : (e.verdict env whole τ).errors = []) :
    (e.verdict env whole τ).ty ≠ .error := by
  cases he with
  | @literal info value => cases value <;> simp [verdict, literalType]
  | @var info ident =>
    rcases hx : env.retrieve ident.spelling with _ | ⟨d, ty | ⟨ret, params⟩⟩ <;> simp only [verdict, hx] at hclean ⊢
    · cases hclean
    · exact (henv.var hx).ne_error
    · split_ifs at hclean ⊢
      exact (henv.ret hx).1.ne_error
  | @arrayAccess info ident index _ =>
    rcases hx : env.retrieve ident.spelling with _ | ⟨d, ty | ⟨ret, params⟩⟩ <;> simp only [verdict, hx] at hclean ⊢
    · cases hclean
    · rcases helement : (Signature.var ty).element? with _ | element <;> simp only [helement] at hclean ⊢
      · cases hclean
      · rcases hf : subscriptFault? (τ index.id) with _ | f <;> simp only [hf] at hclean ⊢
        · exact ((henv.var hx).element helement).1.ne_error
        · cases hclean
    · cases hclean
  | @call info ident args _ =>
    by_cases hmain : ident.spelling = "main"
    · rw [verdict, if_pos hmain] at hclean
      cases hclean
    · rcases hx : env.retrieve ident.spelling with _ | ⟨d, ty | ⟨ret, params⟩⟩ <;>
        simp only [verdict, if_neg hmain, hx] at hclean ⊢
      · cases hclean
      · cases hclean
      · exact (henv.ret hx).1.ne_error
  | @unary info op operand _ =>
    rw [verdict, Ruling.errors_verdict, reported_eq_nil] at hclean
    obtain ⟨a, ha⟩ := Ruling.accepted hclean fun h => hparts operand (by simp [children]) (unaryRuling_silent h)
    rw [verdict, ha]
    exact (unaryRuling_declared ha).1.ne_error
  | @binary info op left right _ _ =>
    rw [verdict, Ruling.errors_verdict, reported_eq_nil] at hclean
    obtain ⟨a, ha⟩ := Ruling.accepted hclean fun h => (binaryRuling_silent h).elim
      (hparts left (by simp [children])) (hparts right (by simp [children]))
    rw [verdict, ha]
    exact (binaryRuling_declared ha).1.ne_error
  | @assign info target value _ _ =>
    by_cases hl : target.isLvalue = true
    · rw [verdict, if_pos hl, Ruling.errors_verdict, reported_eq_nil] at hclean
      obtain ⟨needed, hneeded⟩ := Ruling.accepted hclean (assignRuling_ne_silent _ _ _)
      rw [verdict, if_pos hl, hneeded]
      exact hparts target (by simp [children])
    · rw [verdict, if_neg hl] at hclean
      cases hclean

/-- Where nothing is wrong with the arguments of a call, each fits its parameter. -/
theorem param_of_argument {params : List Ty} {args : List Expr} {span : Span} {i : Nat}
    (hclean : argumentErrors params args span τ = []) (hi : args[i]? = some c) :
    ∃ param, params[i]? = some param ∧ argumentFits param (τ c.id) = true := by
  have hrow := rowErrors_eq_nil_iff.1 (List.append_eq_nil_iff.1 hclean).1
  have hlength : i < params.length := by
    -- else there would be a first argument that is too many
    by_contra hle
    have hlast : params.length < args.length :=
      Nat.lt_of_le_of_lt (Nat.not_lt.1 hle) (List.getElem?_eq_some_iff.1 hi).1
    have hfault := hrow params.length _ (List.getElem?_eq_getElem hlast)
    rw [argumentRulingAt, List.getElem?_eq_none (Nat.le_refl _)] at hfault
    simp [Ruling.fault?] at hfault
  refine ⟨params[i], List.getElem?_eq_getElem hlength, ?_⟩
  have hfault := hrow i c hi
  simp only [argumentRulingAt, List.getElem?_eq_getElem hlength, argumentRuling] at hfault
  split_ifs at hfault with hfits
  · exact hfits
  · cases hfault

/-- Where nothing is wrong with an expression, a part of it that is a string is an argument for a parameter that takes
strings. -/
theorem argument_of_string (he : e.PlainInit) (hlist : e.isList = false)
    (henv : env.Declared (Library.prototypesFor p)) (hparts : ∀ c ∈ e.children, c.Suits (τ c.id) ∧ τ c.id ≠ .error)
    (hclean : (e.verdict env whole τ).errors = []) (hc : c ∈ e.children) (hstring : τ c.id = .string) :
    ∃ (info : ExprInfo) (ident : Ident) (args : List Expr) (i : Nat), e = .call info ident args ∧
      ident.spelling ≠ "main" ∧ args[i]? = some c ∧ ∃ f ∈ Library.prototypesFor p,
        (env.retrieve ident.spelling).map (·.decl) = some f.id ∧ ∃ q : Param, f.params[i]? = some q ∧ q.ty = .string := by
  cases e with
  | literal | var => cases hc
  | initList => cases hlist
  | intToFloat info operand =>
    cases he with
    | expr he => cases he
  | unary info op operand =>
    obtain rfl := List.mem_singleton.1 hc
    rw [verdict, hstring] at hclean
    cases hclean
  | binary info op left right =>
    exfalso
    have hleft := (hparts left (by simp [children])).2
    have hright := (hparts right (by simp [children])).2
    rw [verdict, Ruling.errors_verdict, reported_eq_nil] at hclean
    have hor : τ left.id = .string ∨ τ right.id = .string := by
      rcases List.mem_pair.1 hc with rfl | rfl
      · exact .inl hstring
      · exact .inr hstring
    exact binaryRuling_string hleft hright hor hclean
  | assign info target value =>
    exfalso
    by_cases hl : target.isLvalue = true
    · obtain ⟨htarget, hne⟩ := hparts target (by simp [children])
      have htext : τ target.id ≠ .string := by
        rw [ne_eq, htarget.string, isText_of_isLvalue hl]
        simp
      rw [verdict, if_pos hl, Ruling.errors_verdict, reported_eq_nil] at hclean
      rcases List.mem_pair.1 hc with rfl | rfl
      · exact htext hstring
      · rw [hstring] at hclean
        exact assignRuling_string hne htext _ hclean
    · rw [verdict, if_neg hl] at hclean
      cases hclean
  | arrayAccess info ident index =>
    exfalso
    obtain rfl := List.mem_singleton.1 hc
    rcases hx : env.retrieve ident.spelling with _ | ⟨d, ty | ⟨ret, params⟩⟩ <;> simp only [verdict, hx] at hclean
    · cases hclean
    · rcases helement : (Signature.var ty).element? with _ | element <;> simp only [helement] at hclean
      · cases hclean
      · rw [hstring] at hclean
        cases hclean
    · cases hclean
  | call info ident args =>
    by_cases hmain : ident.spelling = "main"
    · rw [verdict, if_pos hmain] at hclean
      cases hclean
    rcases hx : env.retrieve ident.spelling with _ | ⟨d, ty | ⟨ret, params⟩⟩ <;>
      simp only [verdict, if_neg hmain, hx] at hclean
    · cases hclean
    · cases hclean
    obtain ⟨i, hi⟩ := List.mem_iff_getElem?.1 hc
    obtain ⟨param, hparam, hfits⟩ := param_of_argument hclean hi
    rw [hstring] at hfits
    obtain ⟨f, hf, hd, hq⟩ := henv.library_of_string hx hparam hfits
    exact ⟨info, ident, args, i, rfl, hmain, hi, f, hf, by rw [hx, ← hd]; rfl, hq⟩

end Expr

/-- Where nothing is wrong with a statement, a part of it that is a string stands where nothing is asked of a value. -/
theorem Stmt.place_of_string {s : Stmt} {e : Expr} (he : e ∈ s.exprs) (hstring : τ e.id = .string)
    (hinside : ∃ f, k.function = some f ∧ f.ty.Declared) (hclean : s.ownErrors options k τ = []) :
    (∃ info, s = .exprStmt info e) ∨
      ∃ info init cond update body, s = .forStmt info init cond update body ∧ (init = some e ∨ update = some e) := by
  cases s with
  | ifThen info cond thenBranch =>
    obtain rfl := List.mem_singleton.1 he
    rw [ownErrors, hstring] at hclean
    cases hclean
  | ifElse info cond thenBranch elseBranch =>
    obtain rfl := List.mem_singleton.1 he
    rw [ownErrors, hstring] at hclean
    cases hclean
  | whileStmt info cond body =>
    obtain rfl := List.mem_singleton.1 he
    rw [ownErrors, hstring] at hclean
    cases hclean
  | forStmt info init cond update body =>
    simp only [exprs, List.mem_append, Option.mem_toList] at he
    rcases he with (he | he) | he
    · exact .inr ⟨info, init, cond, update, body, rfl, .inl he⟩
    · cases he
      rw [ownErrors, hstring] at hclean
      cases hclean
    · exact .inr ⟨info, init, cond, update, body, rfl, .inr he⟩
  | returnStmt info value =>
    obtain ⟨f, hf, hty⟩ := hinside
    obtain rfl : value = some e := Option.mem_toList.1 he
    rw [ownErrors, hstring, hf, returnErrors] at hclean
    split_ifs at hclean
    · cases hclean
    · rw [storeRuling_string hty] at hclean
      cases hclean
  | exprStmt info expr =>
    obtain rfl := List.mem_singleton.1 he
    exact .inl ⟨info, rfl⟩
  | compound | breakStmt | continueStmt | emptyStmt => cases he

/-- Where nothing is wrong with a variable, its initial value is no string and is checked as a list only element by
element. -/
theorem VarDecl.values_of_clean {d : VarDecl} (hd : d.Plain) (hclean : d.ownErrors env τ = []) :
    ∀ e ∈ d.values, e.isList = false ∧ τ e.id ≠ .string := by
  intro e he
  rw [ownErrors, List.append_eq_nil_iff] at hclean
  obtain ⟨-, hclean⟩ := hclean
  split at hclean
  · cases hclean
  rename_i hvoid
  unfold values at he
  split at he
  · rename_i hty
    rw [hty] at hvoid
    cases hvoid
  · rename_i element size info elements hvoid' hty hinit
    refine ⟨Expr.Plain.isList (hd.elements hinit e he), fun hstring => ?_⟩
    have helt : d.ty.element? = some element := by rw [hty]; rfl
    obtain ⟨helement, -⟩ := hd.ty.element helt
    simp only [initErrors, hty, hinit, elementErrors, List.append_eq_nil_iff, rowErrors_eq_nil_iff] at hclean
    obtain ⟨i, hi⟩ := List.mem_iff_getElem?.1 he
    have hfault := hclean.1 i e hi
    rw [hstring, storeRuling_string helement] at hfault
    cases hfault
  · rename_i hlist
    have hinit : d.init = some e := Option.mem_toList.1 he
    cases hty : d.ty with
    | array element size =>
      cases e with
      | initList info elements => exact absurd hinit (hlist _ _ _ _ hty)
      | _ =>
        unfold initErrors at hclean
        rw [hty, hinit] at hclean
        cases size <;> cases hclean
    | _ =>
      have hscalar : d.ty.isArray = false := by rw [hty]; rfl
      have hnot : e.isList = false := by
        cases e with
        | initList info elements =>
          unfold initErrors at hclean
          rw [hty, hinit] at hclean
          cases hclean
        | _ => rfl
      refine ⟨hnot, fun hstring => ?_⟩
      rw [initErrors_scalar hinit hscalar hnot, hstring, storeRuling_string hd.ty] at hclean
      cases hclean

/-! ## Places -/

namespace Arena

variable {a b : Arena}

/-- A string stands in a place of a flat form: it is an argument for a parameter of a library function that takes
strings, a statement by itself, or what a loop begins or goes on with. -/
inductive StringPlaced (library : List Prototype) (b : Arena) (id : ExprId) : Prop
  | argument {call : ExprId} {ident : Ident} {args : List ExprId} {i : Nat} {f : Prototype} {q : Param} :
    b.exprKind? call = some (.call ident args) → args[i]? = some id → f ∈ library → ident.decl = some f.id →
    f.params[i]? = some q → q.ty = .string → StringPlaced library b id
  | statement {s : StmtId} : b.stmtKind? s = some (.exprStmt id) → StringPlaced library b id
  | init {s : StmtId} {cond update : Option ExprId} {body : StmtId} :
    b.stmtKind? s = some (.forStmt (some id) cond update body) → StringPlaced library b id
  | update {s : StmtId} {init cond : Option ExprId} {body : StmtId} :
    b.stmtKind? s = some (.forStmt init cond (some id) body) → StringPlaced library b id

/-- Only an `int` gets a conversion into its place. -/
theorem Frame.eq_of_slot (h : a.Frame b) {id id' : ExprId} (hslot : a.Slot b id id') (hint : b.type? id ≠ some .int) :
    id' = id := by
  cases hslot with
  | same => rfl
  | @converted w n hn hkind _ => exact absurd (h.of_conversion hn hkind).2.2.2 hint

/-- What is no `int` stands behind a check where it stood before. -/
theorem Frame.optionSlot (h : a.Frame b) {id : ExprId} {o : Option ExprId} (hslot : Option.Rel (a.Slot b) (some id) o)
    (hint : b.type? id ≠ some .int) : o = some id := by
  cases hslot with
  | some hslot => rw [h.eq_of_slot hslot hint]

/-- An argument that is no `int` stands behind a check where it stood before. -/
theorem Frame.argument (h : a.Frame b) {call id : ExprId} {ident : Ident} {args : List ExprId} {i : Nat}
    (ha : a.exprKind? call = some (.call ident args)) (hi : args[i]? = some id) (hint : b.type? id ≠ some .int) :
    ∃ ident' args', b.exprKind? call = some (.call ident' args') ∧ args'[i]? = some id := by
  obtain ⟨n, hn, hkind⟩ := Option.map_eq_some_iff.1 ha
  obtain ⟨n', hn', hkept⟩ := h.exprs call n hn
  obtain ⟨t, -, hdecorates⟩ := hkept.kind
  rw [hkind] at hdecorates
  have hkind' : b.exprKind? call = some n'.kind := by rw [exprKind?, hn']; rfl
  generalize n'.kind = k at hdecorates hkind'
  cases hdecorates with
  | @call _ ident' _ args' _ _ hslots =>
    obtain ⟨hlt, rfl⟩ := List.getElem?_eq_some_iff.1 hi
    have hlt' : i < args'.length := hslots.length_eq ▸ hlt
    have hsame : args'[i] = args[i] := h.eq_of_slot (hslots.get hlt hlt') hint
    exact ⟨ident', args', hkind', by rw [List.getElem?_eq_getElem hlt', hsame]⟩

theorem Frame.stmtKind (h : a.Frame b) {s : Stmt} {parent : NodeId} (ha : a.Has (s.entries parent)) :
    ∃ kind, b.stmtKind? s.id = some kind ∧ StmtDecorates a b s.kind kind := by
  obtain ⟨n, hn, hkept⟩ := h.stmts s.id _ (ha _ (root_mem s parent))
  exact ⟨n.kind, by rw [stmtKind?, hn]; rfl, hkept.kind⟩

end Arena

/-- An expression that is a part of a construct stands in an expression, in a variable or in a statement. -/
theorem Construct.expr_mem_parts {c : Construct} {e : Expr} (h : .expr whole e ∈ c.parts) :
    (∃ whole' d, c = .expr whole' d ∧ e ∈ d.children) ∨ (∃ d, c = .var d ∧ e ∈ d.values) ∨
      ∃ s, c = .stmt s ∧ e ∈ s.exprs := by
  cases c with
  | expr whole' d =>
    obtain ⟨_, hmem, heq⟩ := List.mem_map.1 h
    cases heq
    exact .inl ⟨whole', d, rfl, hmem⟩
  | var d =>
    obtain ⟨_, hmem, heq⟩ := List.mem_map.1 h
    cases heq
    exact .inr (.inl ⟨d, rfl, hmem⟩)
  | stmt s =>
    simp only [parts, List.mem_append, List.mem_map, reduceCtorEq, and_false, exists_false, false_or, or_false,
      expr.injEq] at h
    obtain ⟨_, hmem, -, rfl⟩ := h
    exact .inr (.inr ⟨s, rfl, hmem⟩)
  | func f => simp [parts] at h

/-! ## A program that is not wrong -/

namespace Typing

variable {vs all : List Visit} {v : Visit} {e : Expr}

/-- Where nothing is reported, nothing is wrong with what is visited. -/
theorem Visited.clean (h : Visited options p vs all) (hclean : (check options p).2 = []) (hv : v ∈ all) :
    v.construct.ownErrors options v.place (check options p).1.arena.typeOf = [] := by
  obtain ⟨env, herrors⟩ := h.errors
  rw [hclean] at herrors
  have hperm := h.walk.errors fun v hv => (h.fits v hv).typed (h.ran v hv)
  rw [(List.append_eq_nil_iff.1 herrors.symm).1] at hperm
  exact List.flatMap_eq_nil_iff.1 (List.nil_perm.1 hperm) v hv

/-- An expression that is visited is a part of something that is. -/
theorem Visited.exists_whole (h : Visited options p vs all) (hv : v ∈ all) (hc : v.construct = .expr whole e) :
    ∃ u ∈ all, .expr whole e ∈ u.construct.parts := by
  rcases h.walk.exists_whole v hv with hwhole | ⟨u, hu, ws, -, hsplit, hmem⟩
  · have hmem : v.construct ∈ p.decls.map TopDecl.construct := h.constructs ▸ List.mem_map_of_mem hwhole
    obtain ⟨d, -, hd⟩ := List.mem_map.1 hmem
    rw [hc] at hd
    cases d <;> cases hd
  · refine ⟨u, hu, ?_⟩
    rw [← hsplit.constructs, ← hc]
    exact List.mem_map_of_mem hmem

/-- Where nothing is reported, no list is checked as a whole. -/
theorem Visited.isList (h : Visited options p vs all) (hplain : p.Plain) (hclean : (check options p).2 = [])
    (hv : v ∈ all) (hc : v.construct = .expr whole e) : e.isList = false := by
  obtain ⟨u, hu, hpart⟩ := h.exists_whole hv hc
  have huplain := (h.scoped hplain u hu).plain
  have huclean := h.clean hclean hu
  rcases Construct.expr_mem_parts hpart with ⟨whole', c, huc, hmem⟩ | ⟨d, huc, hmem⟩ | ⟨s, huc, hmem⟩ <;>
    rw [huc] at huplain huclean
  · exact (Expr.PlainInit.children huplain e hmem).isList
  · exact (VarDecl.values_of_clean huplain huclean e hmem).1
  · exact (Stmt.Plain.exprs huplain e hmem).isList

/-- Where nothing is reported, each expression that is visited has a type. -/
theorem Visited.ne_error (h : Visited options p vs all) (hplain : p.Plain) (hclean : (check options p).2 = [])
    (hv : v ∈ all) (hc : v.construct = .expr whole e) : (check options p).1.arena.typeOf e.id ≠ .error := by
  induction e using Expr.induct_children generalizing v whole with
  | h e ih =>
    have hscoped := h.scoped hplain v hv
    have hlist := h.isList hplain hclean hv hc
    have hown := h.clean hclean hv
    have he : e.Plain := by
      have hplain := hscoped.plain
      rw [hc] at hplain
      cases hplain with
      | expr he => exact he
      | list => cases hlist
    rw [hc] at hown
    rw [h.typeOf hv hc]
    refine Expr.verdict_ne_error he hscoped.env (fun c hmem => ?_) hown
    obtain ⟨w, hw, hwc⟩ := h.exists_part hv (c := .expr false c) (by simpa [hc, Construct.parts] using hmem)
    exact ih c hmem hw hwc

/-- Where nothing is reported, each string stands in its place. -/
theorem Visited.stringPlaced (h : Visited options p vs all) (hplain : p.Plain)
    (hframe : p.arena.Frame (check options p).1.arena) (hfresh : ∀ x, p.arena.Holds x → x.Fresh)
    (hclean : (check options p).2 = []) (hv : v ∈ all) (hc : v.construct = .expr whole e)
    (hstring : (check options p).1.arena.typeOf e.id = .string) :
    (check options p).1.arena.StringPlaced (Library.prototypesFor p) e.id := by
  have hint : (check options p).1.arena.type? e.id ≠ some .int := by
    intro hint
    rw [Arena.typeOf, hint] at hstring
    cases hstring
  obtain ⟨u, hu, hpart⟩ := h.exists_whole hv hc
  have huscoped := h.scoped hplain u hu
  have huplain := huscoped.plain
  have huclean := h.clean hclean hu
  obtain ⟨parent, hsource⟩ := (h.fits u hu).source
  rcases Construct.expr_mem_parts hpart with ⟨whole', c, huc, hmem⟩ | ⟨d, huc, hmem⟩ | ⟨s, huc, hmem⟩
  · rw [huc] at huplain huclean hsource
    have hparts : ∀ d ∈ c.children, d.Suits ((check options p).1.arena.typeOf d.id) ∧
        (check options p).1.arena.typeOf d.id ≠ .error := by
      intro d hd
      obtain ⟨w, hw, hwc⟩ := h.exists_part hu (c := .expr false d) (by simpa [huc, Construct.parts] using hd)
      exact ⟨h.suits hplain hw hwc, h.ne_error hplain hclean hw hwc⟩
    obtain ⟨info, ident, args, i, rfl, hmain, hi, f, hf, hdecl, q, hq, hqty⟩ := Expr.argument_of_string huplain
      (h.isList hplain hclean hu huc) huscoped.env hparts huclean hmem hstring
    obtain ⟨ident', hident, hbound⟩ := (h.fits u hu).bound (h.ran u hu) hfresh huc rfl fun _ _ heq => by
      cases heq
      exact hmain
    have hid : (args.map Expr.id)[i]? = some e.id := by rw [List.getElem?_map, hi]; rfl
    obtain ⟨ident'', args', hkind, hi'⟩ := hframe.argument (Arena.Has.expr hsource).1 hid hint
    obtain rfl : ident'' = ident' := by
      obtain ⟨n, hn, hnkind⟩ := Option.map_eq_some_iff.1 hkind
      rw [Arena.identOf, hn, Option.bind_some, hnkind] at hident
      exact Option.some.inj hident
    exact .argument hkind hi' hf (hbound.trans hdecl) hq hqty
  · rw [huc] at huplain huclean
    exact absurd hstring (VarDecl.values_of_clean huplain huclean e hmem).2
  · rw [huc] at huclean hsource
    obtain ⟨kind, hkind, hdecorates⟩ := hframe.stmtKind hsource
    rcases Stmt.place_of_string hmem hstring (huscoped.inside s huc) huclean with
      ⟨info, rfl⟩ | ⟨info, init, cond, update, body, rfl, hplace⟩
    · cases hdecorates
      exact .statement hkind
    · cases hdecorates with
      | same =>
        rcases hplace with rfl | rfl
        · exact .init hkind
        · exact .update hkind
      | forStmt hinit _ hupdate =>
        rcases hplace with rfl | rfl
        · obtain rfl := hframe.optionSlot hinit hint
          exact .init hkind
        · obtain rfl := hframe.optionSlot hupdate hint
          exact .update hkind

end Typing

/-- Where strings and arrays occur in a flat form behind a check that reports some errors. -/
structure StringsAndArrays (p : Program) (b : Arena) (errors : List Error) : Prop where
  string : ∀ id n, b.expr? id = some n → (n.ty = some .string ↔ ∃ text, n.kind = .literal (.string text))
  array : ∀ id n t, b.expr? id = some n → n.ty = some t → t.isArray = true → b.NamesArray n ∨ b.FillsArray id n
  /-- A fault of number 11 quotes a name that the program uses. -/
  quoted : ∀ x ∈ errors, x.fault.number? = some 11 → ∃ id ident, p.arena.exprKind? id = some (.var ident) ∧
    ident.spelling ≠ "" ∧ x.fault = .notScalar ident.spelling
  placed : errors = [] → ∀ id n text, b.expr? id = some n → n.kind = .literal (.string text) →
    b.StringPlaced (Library.prototypesFor p) id

/-- Whatever is wrong with what was parsed, behind a check only literals are strings, and only names and lists of
initial values are arrays; and where nothing is wrong, each string stands where a string is taken or no value is. -/
theorem check_strings_and_arrays {source : String} {p : Program} (h : (parse source).result = .ok p)
    (options : Options) : StringsAndArrays p (check options p).1.arena (check options p).2 := by
  obtain ⟨hplain, hnumbered⟩ := parse_built h
  have hcomplete := hnumbered.complete
  have hframe := frame_check options hplain hcomplete
  have hfresh : ∀ x, p.arena.Holds x → x.Fresh := fun x hx => parse_fresh h x ((hcomplete.holds_iff x).1 hx)
  obtain ⟨vs, all, hvisited⟩ := visited_check options hplain hcomplete
  have htype {id : ExprId} {n : ExprNode} (hn : (check options p).1.arena.expr? id = some n) :=
    hvisited.node_type hplain hcomplete hfresh hn
  refine ⟨fun id n hn => (htype hn).1, fun id n t hn => (htype hn).2 t, fun x hx hnumber => ?_, ?_⟩
  · obtain ⟨id, ident, hident, hfault⟩ := hvisited.quoted hplain hx hnumber
    refine ⟨id, ident, hident, fun hempty => Renaming.not_isIdentifier_empty ?_, hfault⟩
    obtain ⟨n, hn, hkind⟩ := Option.map_eq_some_iff.1 hident
    have hnamed := parse_allNamed h _ ((hcomplete.holds_iff (.expr id n)).1 hn) ident
      (by simp [Entry.ident?, hkind, ExprKind.ident?])
    rwa [hempty] at hnamed
  · intro hclean id n text hn hkind
    -- a check puts in no strings
    obtain ⟨n₀, hn₀, hkind₀⟩ : ∃ n₀, p.arena.expr? id = some n₀ ∧ n₀.kind = .literal (.string text) := by
      rcases hframe.expr_cases hn with ⟨n₀, hn₀, hkept⟩ | hadded
      · obtain ⟨t, -, hdecorates⟩ := hkept.kind
        exact ⟨n₀, hn₀, hdecorates.literal_iff.1 hkind⟩
      · cases hadded <;> cases hkind
    obtain ⟨e, he, rfl, hekind⟩ := Program.exists_subexpr hplain hcomplete hn₀
    have hlist : e.isList = false := by
      rw [hkind₀] at hekind
      cases e <;> cases hekind
      rfl
    obtain ⟨v, hv, whole, hc⟩ := hvisited.exists_visit he hlist
    refine hvisited.stringPlaced hplain hframe hfresh hclean hv hc ?_
    rw [Arena.typeOf, Arena.type?, hn, Option.bind_some, (htype hn).1.2 ⟨text, hkind⟩, Option.getD_some]

/-- A program without any error, with strings in all places that they have. -/
theorem check_strings_and_arrays_placed : ∃ source p, (parse source).result = .ok p ∧ (check .standard p).2 = [] ∧
    StringsAndArrays p (check .standard p).1.arena (check .standard p).2 := by
  let source := "int f(int a[])\x7b\"x\"; putString(\"y\"); return a[0];\x7d " ++
    "int main()\x7bint b[] = \x7b1, 2\x7d; for(\"z\";;\"z\") f(b); return 0;\x7d"
  have hparses : (parse source).result.isOk = true := by decide +kernel
  obtain ⟨p, hp⟩ := exists_of_isOk hparses
  have hchecked : ((parse source).result.toOption.any fun p => decide ((check .standard p).2 = [])) = true := by
    decide +kernel
  rw [hp] at hchecked
  exact ⟨source, p, hp, of_decide_eq_true hchecked, check_strings_and_arrays hp .standard⟩

end VCLang
