/-
Types go with forms. A string is a literal, and an array is the name of a variable or a list of initial values for
one, so that a fault which quotes an array quotes a name.
-/
import VCLang.Proofs.Verdict.Scope
import VCLang.Proofs.Verdict.Variables
namespace VCLang

open Typing

/-! ## Types that can be declared -/

namespace Ty.Declared

variable {t : Ty}

theorem ne_error (h : t.Declared) : t ≠ .error := h.proper.ne_error

theorem ne_string (h : t.Declared) : t ≠ .string := by
  rintro rfl
  cases h

/-- The elements of an array are no arrays. -/
theorem element {element : Ty} (h : t.Declared) (he : t.element? = some element) :
    element.Declared ∧ element.isArray = false := by
  cases h with
  | array hscalar helement =>
    cases he
    exact ⟨helement, hscalar⟩
  | _ => cases he

end Ty.Declared

/-- What an operator makes of its operands is a value. -/
theorem unaryRuling_declared {op : String} {s t : Ty} {tag : OperandTag} (h : unaryRuling op s = .accept (t, tag)) :
    t.Declared ∧ t.isArray = false := by
  cases (unaryRuling_iff.1 h).1 with
  | not => exact ⟨.boolean, rfl⟩
  | sign _ ht =>
    simp only [List.mem_cons, List.not_mem_nil, or_false] at ht
    rcases ht with rfl | rfl
    · exact ⟨.int, rfl⟩
    · exact ⟨.float, rfl⟩

theorem binaryRuling_declared {op : String} {s s' t : Ty} {u : Unified} {left right : String}
    (h : binaryRuling op s s' left right = .accept (t, u)) : t.Declared ∧ t.isArray = false := by
  cases (binaryOp_of_ruling h).1 with
  | arithmetic _ hcommon =>
    cases hcommon
    · exact ⟨.int, rfl⟩
    all_goals exact ⟨.float, rfl⟩
  | _ => exact ⟨.boolean, rfl⟩

/-- What is so of the type `error` and of what a rule makes of all that it accepts is so of the verdict by it. -/
theorem Ruling.ty_verdict {α : Type} {P : Ty → Prop} {r : Ruling α} {ty : α → Ty} (span : Span) (herror : P .error)
    (h : ∀ a, r = .accept a → P (ty a)) : P (r.verdict ty span).ty := by
  cases r with
  | accept a => exact h a rfl
  | _ => exact herror

/-! ## Forms -/

namespace Expr

variable {e : Expr} {t : Ty}

/-- Whether an expression is the literal of a string. -/
def isText : Expr → Bool
  | literal _ (.string _) => true
  | _ => false

theorem exists_of_isList (h : e.isList = true) : ∃ info elements, e = .initList info elements := by
  cases e <;> cases h
  exact ⟨_, _, rfl⟩

/-- An expression of this form may be of a type: literals are strings and nothing else is, and only names are
arrays. -/
structure Suits (e : Expr) (t : Ty) : Prop where
  string : t = .string ↔ e.isText = true
  array : t.isArray = true → ∃ info ident, e = .var info ident

theorem isText_of_isLvalue (h : e.isLvalue = true) : e.isText = false := by
  cases e <;> first
    | rfl
    | cases h

/-- Whatever is no literal may be of the type of a value. -/
theorem suits_value (he : e.isText = false) (ht : t.Declared) (harray : t.isArray = false) : e.Suits t := by
  refine ⟨iff_of_false ht.ne_string (by simp [he]), fun h => ?_⟩
  rw [harray] at h
  cases h

theorem suits_error (he : e.isText = false) : e.Suits .error :=
  ⟨iff_of_false (by simp) (by simp [he]), nofun⟩

variable {p : Program} {env : Env} {whole : Bool} {τ : ExprId → Ty}

/-- The type that an expression of a source tree gets goes with its form, if those of its parts do. -/
theorem suits_verdict (he : e.PlainInit) (henv : env.Declared (Library.prototypesFor p))
    (hparts : ∀ c ∈ e.children, c.Suits (τ c.id)) : e.Suits (e.verdict env whole τ).ty := by
  cases e with
  | literal info value =>
    cases value with
    | string => exact ⟨iff_of_true rfl rfl, nofun⟩
    | int => exact suits_value rfl .int rfl
    | float => exact suits_value rfl .float rfl
    | boolean => exact suits_value rfl .boolean rfl
  | var info ident =>
    refine ⟨iff_of_false ?_ (by simp [isText]), fun _ => ⟨info, ident, rfl⟩⟩
    rcases hx : env.retrieve ident.spelling with _ | ⟨d, ty | ⟨ret, params⟩⟩ <;> simp only [verdict, hx]
    · simp
    · exact (henv.var hx).ne_string
    · split_ifs
      · exact (henv.ret hx).1.ne_string
      · simp
  | arrayAccess info ident index =>
    rcases hx : env.retrieve ident.spelling with _ | ⟨d, ty | ⟨ret, params⟩⟩ <;> simp only [verdict, hx]
    · exact suits_error rfl
    · rcases helement : (Signature.var ty).element? with _ | element
      · exact suits_error rfl
      · obtain ⟨hdeclared, harray⟩ := (henv.var hx).element helement
        rcases subscriptFault? (τ index.id) with _ | f
        · exact suits_value rfl hdeclared harray
        · exact suits_error rfl
    · exact suits_error rfl
  | call info ident args =>
    by_cases hmain : ident.spelling = "main"
    · simp only [verdict, if_pos hmain]
      exact suits_error rfl
    · rcases hx : env.retrieve ident.spelling with _ | ⟨d, ty | ⟨ret, params⟩⟩ <;>
        simp only [verdict, if_neg hmain, hx]
      · exact suits_error rfl
      · exact suits_error rfl
      · exact suits_value rfl (henv.ret hx).1 (henv.ret hx).2
  | unary info op operand =>
    refine Ruling.ty_verdict info.span (suits_error rfl) fun a ha => ?_
    obtain ⟨hdeclared, harray⟩ := unaryRuling_declared ha
    exact suits_value rfl hdeclared harray
  | binary info op left right =>
    refine Ruling.ty_verdict info.span (suits_error rfl) fun a ha => ?_
    obtain ⟨hdeclared, harray⟩ := binaryRuling_declared ha
    exact suits_value rfl hdeclared harray
  | assign info target value =>
    rw [verdict]
    split_ifs with hl
    · -- the type is that of the target, which is no literal, and no array where it is assigned to
      refine Ruling.ty_verdict info.span (suits_error rfl) fun a ha => ?_
      have htarget : τ target.id ≠ .string := by
        intro h
        have htext := (hparts target (by simp [children])).string.1 h
        rw [isText_of_isLvalue hl] at htext
        cases htext
      refine ⟨iff_of_false htarget (by simp [isText]), fun harray => ?_⟩
      rw [assignRuling, if_pos harray] at ha
      cases ha
    · exact suits_error rfl
  | initList info elements => exact suits_error rfl
  | intToFloat info operand =>
    cases he with
    | expr he => cases he

/-! ## Arrays that are quoted -/

/-- A fault of number 11 quotes a name: the expression, or a part of it that is an array. -/
theorem quoted_verdict (hparts : ∀ c ∈ e.children, c.Suits (τ c.id)) {x : Error}
    (hx : x ∈ (e.verdict env whole τ).errors) (hn : x.fault.number? = some 11) :
    ∃ info ident, .var info ident ∈ e :: e.children ∧ x.fault = .notScalar ident.spelling := by
  -- an array among the parts is a name
  have hpart {c : Expr} (hc : c ∈ e.children) (harray : (τ c.id).isArray = true)
      (hfault : x.fault = .notScalar c.name) :
      ∃ info ident, .var info ident ∈ e :: e.children ∧ x.fault = .notScalar ident.spelling := by
    obtain ⟨info, ident, rfl⟩ := (hparts c hc).array harray
    exact ⟨info, ident, List.mem_cons_of_mem _ hc, hfault⟩
  have hno {ns : List Nat} (h : OfNumbers ns (e.verdict env whole τ).errors) (hns : 11 ∉ ns) :
      ∃ info ident, .var info ident ∈ e :: e.children ∧ x.fault = .notScalar ident.spelling := by
    obtain ⟨m, hm, hnumber⟩ := h x hx
    cases hn.symm.trans hnumber
    exact absurd hm hns
  cases e with
  | var info ident =>
    refine ⟨info, ident, List.mem_cons_self, ?_⟩
    rcases hx' : env.retrieve ident.spelling with _ | ⟨d, ty | ⟨ret, params⟩⟩ <;> simp only [verdict, hx'] at hx
    · cases List.mem_singleton.1 hx
      cases hn
    · cases hx
    · split_ifs at hx
      · cases hx
      · rw [List.mem_singleton.1 hx]
  | call info ident args => exact hno ofNumbers_call (by simp)
  | unary info op operand =>
    have hnumbers : OfNumbers [10] ((Expr.unary info op operand).verdict env whole τ).errors := by
      rw [verdict, Ruling.errors_verdict]
      exact ofNumbers_unary _ _ _
    exact hno hnumbers (by simp)
  | binary info op left right =>
    rw [verdict, Ruling.errors_verdict, binaryRuling] at hx
    split_ifs at hx with _ hleft hright
    · cases hx
    · exact hpart (by simp [children]) hleft (by rw [List.mem_singleton.1 hx])
    · exact hpart (by simp [children]) hright (by rw [List.mem_singleton.1 hx])
    · cases List.mem_singleton.1 hx
      cases hn
    · split at hx
      · cases hx
      · cases List.mem_singleton.1 hx
        cases hn
  | assign info target value =>
    rw [verdict] at hx
    split_ifs at hx
    · rw [Ruling.errors_verdict, assignRuling, storeRuling] at hx
      split_ifs at hx with _ hvalue
      · cases List.mem_singleton.1 hx
        cases hn
      · exact hpart (by simp [children]) hvalue (by rw [List.mem_singleton.1 hx])
      · cases hx
      · cases List.mem_singleton.1 hx
        cases hn
    · cases List.mem_singleton.1 hx
      cases hn
  | arrayAccess info ident index =>
    rw [verdict] at hx
    split at hx
    · cases List.mem_singleton.1 hx
      cases hn
    · split at hx
      · cases List.mem_singleton.1 hx
        cases hn
      · have hsubscript := ofNumbers_subscript (τ index.id) index.span
        split at hx
        · cases hx
        · rename_i f hf
          rw [hf] at hsubscript
          obtain ⟨m, hm, hnumber⟩ := hsubscript x hx
          cases hn.symm.trans hnumber
          simp at hm
  | _ => cases hx

end Expr

namespace Typing

variable {options : Options} {p : Program} {vs all : List Visit} {v : Visit}

/-- What is a part of a construct that is visited is visited. -/
theorem Visited.exists_part (h : Visited options p vs all) (hv : v ∈ all) {c : Construct}
    (hc : c ∈ v.construct.parts) : ∃ w ∈ all, w.construct = c := by
  obtain ⟨ws, hws, hsplit⟩ := h.walk.splits v hv
  rw [← hsplit.constructs] at hc
  obtain ⟨w, hw, heq⟩ := List.mem_map.1 hc
  exact ⟨w, hws hw, heq⟩

/-- Behind a check the type of each expression that is visited goes with its form. -/
theorem Visited.suits (h : Visited options p vs all) (hplain : p.Plain) (hv : v ∈ all) {whole : Bool} {e : Expr}
    (hc : v.construct = .expr whole e) : e.Suits ((check options p).1.arena.typeOf e.id) := by
  induction e using Expr.induct_children generalizing v whole with
  | h e ih =>
    have hscoped := h.scoped hplain v hv
    have he : e.PlainInit := by
      have hplain := hscoped.plain
      rwa [hc] at hplain
    rw [h.typeOf hv hc]
    refine Expr.suits_verdict he hscoped.env fun c hmem => ?_
    obtain ⟨w, hw, hwc⟩ := h.exists_part hv (c := .expr false c) (by simpa [hc, Construct.parts] using hmem)
    exact ih c hmem hw hwc

/-- A fault of number 11 quotes a name in the program. -/
theorem Visited.quoted (h : Visited options p vs all) (hplain : p.Plain) {x : Error}
    (hx : x ∈ (check options p).2) (hn : x.fault.number? = some 11) :
    ∃ id ident, p.arena.exprKind? id = some (.var ident) ∧ x.fault = .notScalar ident.spelling := by
  have hmem : x ∈ numbered 11 (check options p).2 := List.mem_filter.2 ⟨hx, by simp [hn]⟩
  obtain ⟨v, hv, hown⟩ := List.mem_flatMap.1 ((h.numbered_errors (by omega)).mem_iff.1 hmem)
  have hown := List.mem_of_mem_filter hown
  have hno {ns : List Nat} (h : OfNumbers ns (v.construct.ownErrors options v.place (check options p).1.arena.typeOf))
      (hns : 11 ∉ ns) : False := by
    obtain ⟨m, hm, hnumber⟩ := h x hown
    cases hn.symm.trans hnumber
    exact hns hm
  cases hc : v.construct with
  | var d =>
    rw [hc] at hno
    exact (hno (ofNumbers_var d _ _) (by simp)).elim
  | stmt s =>
    rw [hc] at hno
    exact (hno (ofNumbers_stmt options _ _ s) (by cases s <;> simp [Stmt.numbers])).elim
  | func f =>
    rw [hc] at hno
    exact (hno (ofNumbers_function options _ f) (by simp)).elim
  | expr whole e =>
    rw [hc] at hown
    have hpart : ∀ c ∈ e.children, ∃ w ∈ all, w.construct = .expr false c := fun c hmem =>
      h.exists_part hv (by simpa [hc, Construct.parts] using hmem)
    obtain ⟨info, ident, hvar, hfault⟩ := Expr.quoted_verdict
      (fun c hmem => by
        obtain ⟨w, hw, hwc⟩ := hpart c hmem
        exact h.suits hplain hw hwc) hown hn
    obtain ⟨w, hw, whole', hwc⟩ : ∃ w ∈ all, ∃ whole', w.construct = .expr whole' (.var info ident) := by
      rcases List.mem_cons.1 hvar with heq | hmem
      · exact ⟨v, hv, whole, by rw [hc, heq]⟩
      · obtain ⟨w, hw, hwc⟩ := hpart _ hmem
        exact ⟨w, hw, false, hwc⟩
    obtain ⟨parent, hsource⟩ := (h.fits w hw).source
    rw [hwc] at hsource
    exact ⟨info.id, ident, (Arena.Has.expr hsource).1, hfault⟩

/-! ## Arrays -/

/-- The list of initial values of an array is of the type of the array behind the check. -/
theorem ends_lists {k k' : Checker} {d d' : VarDecl} {errors : List Error} {e : Expr} (he : e ∈ d.lists)
    (h : (checkVarDecl d).Ends k d' k' errors) : ∃ info elements elements', e = .initList info elements ∧
      d'.ty.isArray = true ∧ d' = { d with ty := d'.ty, init := some (.initList (info.typed d'.ty) elements') } := by
  unfold VarDecl.lists at he
  split at he
  · cases he
  · rename_i element size info elements hvoid hty hinit
    obtain rfl := List.mem_singleton.1 he
    have hfault : voidFault? d.ident.spelling d.ty = none := by
      rw [hty]
      cases element <;> first
        | rfl
        | exact absurd rfl hvoid
    have hcheck : checkInit d = checkArrayInit d element size info elements := by
      unfold checkInit
      rw [hty, hinit]
      cases size <;> rfl
    simp only [checkVarDecl, hfault, hcheck, checkArrayInit, Check.ends_bind, Check.ends_get, ends_onExpr,
      Check.ends_pure, Check.ends_modify] at h
    obtain ⟨_, _, _, _, -, -, _, _, _, _, -, -, d', _, _, _, -, ⟨elements', _, _, _, -, -, h⟩, _, _, _, _, -, -, rfl,
      -⟩ := h
    refine ⟨info, elements, elements', rfl, ?_⟩
    split_ifs at h
    · obtain ⟨rfl, -⟩ := ends_report_pure.1 h
      exact ⟨rfl, rfl⟩
    · obtain ⟨rfl, -⟩ := Check.ends_pure.1 h
      exact ⟨rfl, rfl⟩
  · cases he

end Typing

namespace Arena

variable {a b : Arena}

theorem Sized.isArray {init : Option ExprId} {t t' : Ty} (h : Sized a init t t') : t'.isArray = t.isArray := by
  cases h <;> rfl

/-- A string is a literal, as a kind of node. -/
theorem Decorates.literal_iff {k k' : ExprKind} {t : Ty} {value : Literal} (h : Decorates a b k k' t) :
    k' = .literal value ↔ k = .literal value := by
  cases h <;> simp

/-- An expression is the name of a variable or a parameter that is an array. -/
def NamesArray (b : Arena) (n : ExprNode) : Prop :=
  ∃ ident d m, n.kind = .var ident ∧ ident.decl = some d ∧ b.decl? d = some m ∧ m.kind.isFunction = false ∧
    m.ty.isArray = true

/-- An expression is the list of initial values of a variable that is an array. -/
def FillsArray (b : Arena) (id : ExprId) (n : ExprNode) : Prop :=
  ∃ elements d m, n.kind = .initList elements ∧ b.decl? d = some m ∧ m.kind.init? = some id ∧ m.ty.isArray = true

end Arena

namespace Typing

variable {options : Options} {p : Program} {vs all : List Visit} {v : Visit}

/-- Behind the check the list of an array stands at its variable, and is of the type of the variable. -/
theorem Visited.list_typed (h : Visited options p vs all) (hv : v ∈ all) {d : VarDecl} (hc : v.construct = .var d)
    {e : Expr} (he : e ∈ d.lists) : ∃ m, (check options p).1.arena.decl? d.id = some m ∧
      m.kind.init? = some e.id ∧ m.ty.isArray = true ∧ (check options p).1.arena.type? e.id = some m.ty := by
  obtain ⟨after, hends⟩ := h.ran v hv
  obtain ⟨parent, hb⟩ := (h.fits v hv).result
  rw [hc] at hends
  obtain ⟨d', hd, hresult⟩ := Check.ends_map.1 hends
  obtain ⟨info, elements, elements', rfl, harray, heq⟩ := ends_lists he hd
  rw [hresult, heq] at hb
  rw [Construct.entries, VarDecl.entries, Arena.has_append, Expr.entriesOption] at hb
  refine ⟨_, hb.2.decl, ?_, harray, (Arena.Has.expr hb.1).2⟩
  unfold VarDecl.kind
  split_ifs <;> rfl

/-- A name that is an array names a variable: no function returns one. -/
theorem Expr.retrieve_of_isArray {env : Env} (henv : env.Declared (Library.prototypesFor p)) {whole : Bool}
    {τ : ExprId → Ty} {info : ExprInfo} {ident : Ident}
    (harray : ((Expr.var info ident).verdict env whole τ).ty.isArray = true) :
    ∃ d ty, env.retrieve ident.spelling = some ⟨d, .var ty⟩ := by
  rcases hx : env.retrieve ident.spelling with _ | ⟨d, ty | ⟨ret, params⟩⟩ <;> simp only [Expr.verdict, hx] at harray
  · cases harray
  · exact ⟨d, ty, rfl⟩
  · split_ifs at harray
    · rw [(henv.ret hx).2] at harray
      cases harray
    · cases harray

/-- The check leaves a name a name. -/
theorem Visit.Fits.kind_var {a b : Arena} (h : v.Fits a b) (hframe : a.Frame b) {whole : Bool} {info : ExprInfo}
    {ident : Ident} (hc : v.construct = .expr whole (.var info ident)) {n : ExprNode}
    (hn : b.expr? info.id = some n) : ∃ ident', n.kind = .var ident' := by
  obtain ⟨parent, hsource⟩ := h.source
  rw [hc] at hsource
  obtain ⟨n', hn', hkept⟩ := hframe.exprs info.id _ (hsource _ (Arena.entry_mem_entries (.var info ident) parent))
  cases hn.symm.trans hn'
  obtain ⟨t, -, hdecorates⟩ := hkept.kind
  generalize n.kind = k at hdecorates ⊢
  cases hdecorates with
  | var => exact ⟨_, rfl⟩

/-- Behind the check a name that is an array is bound to a variable that is one. -/
theorem Visited.namesArray (h : Visited options p vs all) (hplain : p.Plain)
    (hframe : p.arena.Frame (check options p).1.arena) (hfresh : ∀ x, p.arena.Holds x → x.Fresh) (hv : v ∈ all)
    {whole : Bool} {info : ExprInfo} {ident : Ident} (hc : v.construct = .expr whole (.var info ident)) {n : ExprNode}
    (hn : (check options p).1.arena.expr? info.id = some n) (harray : n.type.isArray = true) :
    (check options p).1.arena.NamesArray n := by
  have hfits := h.fits v hv
  have htype := h.typeOf hv hc
  have hfound : (check options p).1.arena.typeOf info.id = n.type := by
    rw [Arena.typeOf, Arena.type?, hn]
    rfl
  rw [show (Expr.var info ident).id = info.id from rfl, hfound] at htype
  obtain ⟨d, ty, hx⟩ := Expr.retrieve_of_isArray (h.scoped hplain v hv).env (by rwa [← htype])
  -- the name is bound to what is in scope, and that is a variable of the program
  obtain ⟨ident', hident, hdecl⟩ := hfits.bound (h.ran v hv) hfresh hc rfl (by rintro _ _ ⟨⟩)
  rw [hx, Option.map_some] at hdecl
  obtain ⟨s, hs, hvar⟩ := hfits.declared hframe hx
  obtain ⟨ty', rfl⟩ : ∃ ty', s = .var ty' := by
    cases s with
    | var ty' => exact ⟨ty', rfl⟩
    | func ret params =>
      obtain ⟨_, _, heq⟩ := hvar.2 ⟨ret, params, rfl⟩
      cases heq
  obtain ⟨m, hm, hfunc, -⟩ := Arena.declared_eq_var hs
  obtain ⟨_, hkind⟩ := hfits.kind_var hframe hc hn
  rw [Arena.identOf, show (Expr.var info ident).id = info.id from rfl, hn, Option.bind_some, hkind] at hident
  cases hident
  have hname : (check options p).1.arena.exprKind? info.id = some (.var ident') := by
    rw [Arena.exprKind?, hn, Option.map_some, hkind]
  refine ⟨ident', d, m, hkind, hdecl, hm, hfunc, ?_⟩
  obtain ⟨found, hfoundType, htyped⟩ := hfits.useTyped hframe (h.ran v hv) hc
    (hfits.unbound hfresh hc rfl) hname hdecl hm hfunc
  obtain rfl : n.type = found := by rw [← hfound, Arena.typeOf, hfoundType, Option.getD_some]
  by_cases hunder : p.arena.Under (.expr info.id) (.decl d)
  · obtain ⟨m', -, heq, hsized⟩ := htyped.inside hunder
    rwa [hsized.isArray, ← heq]
  · rwa [← htyped.outside hunder]

/-- The types of all expressions behind a check: each string is a literal, and each array is a name or a list. -/
theorem Visited.node_type (h : Visited options p vs all) (hplain : p.Plain) (hcomplete : p.Complete)
    (hfresh : ∀ x, p.arena.Holds x → x.Fresh) {id : ExprId} {n : ExprNode}
    (hn : (check options p).1.arena.expr? id = some n) :
    (n.ty = some .string ↔ ∃ text, n.kind = .literal (.string text)) ∧ ∀ t, n.ty = some t → t.isArray = true →
      (check options p).1.arena.NamesArray n ∨ (check options p).1.arena.FillsArray id n := by
  have hframe := frame_check options hplain hcomplete
  rcases hframe.expr_cases hn with ⟨n₀, hn₀, hkept⟩ | hadded
  · obtain ⟨t, ht, hdecorates⟩ := hkept.kind
    obtain ⟨e, he, rfl, hkind⟩ := Program.exists_subexpr hplain hcomplete hn₀
    rw [← hkind] at hdecorates
    have htype : (check options p).1.arena.typeOf e.id = t := by
      rw [Arena.typeOf, Arena.type?, hn, Option.bind_some, ht, Option.getD_some]
    have htext : (∃ text, n.kind = .literal (.string text)) ↔ e.isText = true := by
      simp only [hdecorates.literal_iff]
      cases e with
      | literal info value => cases value <;> simp [Expr.kind, Expr.isText]
      | _ => simp [Expr.kind, Expr.isText]
    rw [ht, htext]
    obtain ⟨v, hv, hown⟩ := h.exists_owner he
    cases hc : v.construct with
    | expr whole c =>
      rw [hc] at hown
      obtain rfl := List.mem_singleton.1 hown
      have hsuits := h.suits hplain hv hc
      rw [htype] at hsuits
      refine ⟨by simpa using hsuits.string, ?_⟩
      rintro _ ⟨⟩ harray
      obtain ⟨info, ident, rfl⟩ := hsuits.array harray
      exact .inl (h.namesArray hplain hframe hfresh hv hc hn (by rwa [ExprNode.type, ht]))
    | var d =>
      rw [hc] at hown
      obtain ⟨m, hm, hinit, harray, hlist⟩ := h.list_typed hv hc hown
      obtain rfl : m.ty = t := by rw [← htype, Arena.typeOf, hlist, Option.getD_some]
      have hne : m.ty ≠ .string := by
        intro hstring
        rw [hstring] at harray
        cases harray
      obtain ⟨info, elements, rfl⟩ := Expr.exists_of_isList (VarDecl.isList_of_mem_lists hown)
      refine ⟨iff_of_false (by simpa using hne) (by simp [Expr.isText]), fun _ _ _ => .inr ?_⟩
      obtain ⟨elements', hkind'⟩ : ∃ elements', n.kind = .initList elements' := by
        generalize n.kind = k at hdecorates ⊢
        cases hdecorates with
        | initList => exact ⟨_, rfl⟩
      exact ⟨elements', d.id, m, hkind', hm, hinit, harray⟩
    | stmt s | func f =>
      rw [hc] at hown
      cases hown
  · cases hadded with
    | conversion => exact ⟨by simp, fun t ht harray => by cases ht; cases harray⟩
    | condition => exact ⟨by simp, fun t ht harray => by cases ht; cases harray⟩

end Typing

end VCLang
