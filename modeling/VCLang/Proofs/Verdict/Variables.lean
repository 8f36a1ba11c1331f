/-
The types of variables where they are used. A use is of the type that its declaration has behind the check, unless it
stands in the initial value of the declaration itself: there a size that is not written is not known yet.
-/
import VCLang.Proofs.Verdict.Program
namespace VCLang

open Typing

namespace Arena

variable {a b : Arena}

theorem declared_eq_var {d : DeclId} {name : String} {ty : Ty} (h : a.declared? d = some (name, .var ty)) :
    ∃ m, a.decl? d = some m ∧ m.kind.isFunction = false ∧ m.ty = ty := by
  obtain ⟨m, hm, heq⟩ := Option.map_eq_some_iff.1 h
  refine ⟨m, hm, ?_⟩
  rw [signature] at heq
  split_ifs at heq with hfunc
  · cases heq
  · cases heq
    exact ⟨Bool.eq_false_iff.2 hfunc, rfl⟩

theorem isFunction_of_declared {d : DeclId} {m : DeclNode} (hm : a.decl? d = some m) {name : String} {ret : Ty}
    {params : List Ty} (h : a.declared? d = some (name, .func ret params)) : m.kind.isFunction = true := by
  rw [declared?, hm, Option.map_some, signature] at h
  by_contra hne
  rw [if_neg hne] at h
  cases h

/-- The type of a use of a variable, by what its declaration says before and behind a check. -/
structure UseTyped (a b : Arena) (id : ExprId) (d : DeclId) (found declared : Ty) : Prop where
  outside : ¬ a.Under (.expr id) (.decl d) → found = declared
  /-- In its own initial value a variable is of the type that is written, which has no size where the list of
  initial values gives the size. -/
  inside : a.Under (.expr id) (.decl d) →
    ∃ m, a.decl? d = some m ∧ found = m.ty ∧ Sized a m.kind.init? m.ty declared

/-- Each expression that is a name, bound to a variable or a parameter, is of the type of that. -/
def UsesTyped (a b : Arena) : Prop :=
  ∀ id n ident d m, b.expr? id = some n → n.kind = .var ident → ident.decl = some d → b.decl? d = some m →
    m.kind.isFunction = false → ∃ found, n.ty = some found ∧ UseTyped a b id d found m.ty

end Arena

namespace Typing

variable {options : Options} {p : Program} {a b : Arena} {vs all : List Visit} {v : Visit}

/-- What the check makes of a name by itself. -/
theorem Visit.Fits.useTyped (hframe : a.Frame b) (h : v.Fits a b) (hran : v.Ran options) {whole : Bool}
    {info : ExprInfo} {ident ident' : Ident} (hv : v.construct = .expr whole (.var info ident))
    (hfresh : ident.decl = none) (hkind : b.exprKind? info.id = some (.var ident')) {d : DeclId} {m : DeclNode}
    (hd : ident'.decl = some d) (hm : b.decl? d = some m) (hfunc : m.kind.isFunction = false) :
    ∃ found, b.type? info.id = some found ∧ a.UseTyped b info.id d found m.ty := by
  obtain ⟨after, hends⟩ := hran
  obtain ⟨parent, hb⟩ := h.result
  rw [hv] at hends
  obtain ⟨e', he, hresult⟩ := Check.ends_map.1 hends
  obtain ⟨n', he, -⟩ := ends_onExpr.1 he
  rw [hresult] at hb
  rw [checkExpr, checkVar] at he
  have hnode : a.Under v.construct.node (.decl d) ↔ a.Under (.expr info.id) (.decl d) := by rw [hv]; rfl
  rcases hx : v.place.env.retrieve ident.spelling with _ | ⟨x, ty | ⟨ret, params⟩⟩ <;> rw [hx] at he
  · -- nothing is in scope by this name, and so it is bound to nothing
    obtain ⟨rfl, -, -⟩ := ends_report_pure.1 he
    cases hkind.symm.trans (Arena.Has.expr hb).1
    cases hfresh.symm.trans hd
  · obtain ⟨rfl, -, -⟩ := Check.ends_pure.1 he
    cases hkind.symm.trans (Arena.Has.expr hb).1
    cases hd
    refine ⟨ty, (Arena.Has.expr hb).2, fun hat => ?_, fun hat => ?_⟩
    · obtain ⟨m', hm', -, rfl⟩ := Arena.declared_eq_var (h.outside _ _ hx (mt hnode.1 hat))
      cases hm.symm.trans hm'
      rfl
    · obtain ⟨m', hm', -, rfl⟩ := Arena.declared_eq_var (h.inside _ _ hx (hnode.2 hat))
      obtain ⟨m'', hm'', hkept⟩ := hframe.decls _ _ hm'
      cases hm.symm.trans hm''
      exact ⟨m', hm', rfl, hkept.ty⟩
  · -- a function, which is no variable
    have hbound : d = x := by
      cases whole with
      | false =>
        obtain ⟨rfl, -, -⟩ := ends_report_pure.1 he
        cases hkind.symm.trans (Arena.Has.expr hb).1
        exact (Option.some.inj hd).symm
      | true =>
        obtain ⟨rfl, -, -⟩ := Check.ends_pure.1 he
        cases hkind.symm.trans (Arena.Has.expr hb).1
        exact (Option.some.inj hd).symm
    subst hbound
    have hdeclared := h.functions _ _ hx ⟨ret, params, rfl⟩
    cases hfunc.symm.trans (Arena.isFunction_of_declared hm hdeclared)

end Typing

/-- Whatever is wrong with what was parsed, each variable is used with the type that its declaration has behind the
check; in its own initial value it is used with the type that is written. -/
theorem check_types_uses {source : String} {p : Program} (h : (parse source).result = .ok p) (options : Options) :
    p.arena.UsesTyped (check options p).1.arena := by
  obtain ⟨hplain, hnumbered⟩ := parse_built h
  have hcomplete := hnumbered.complete
  have hframe := frame_check options hplain hcomplete
  obtain ⟨vs, all, hvisited⟩ := visited_check options hplain hcomplete
  intro id n' ident' d m hn' hkind hd hm hfunc
  -- a check puts in no names
  obtain ⟨n, hn, ident, hident⟩ : ∃ n, p.arena.expr? id = some n ∧ ∃ ident, n.kind = .var ident := by
    rcases hframe.expr_cases hn' with ⟨n, hn, hkept⟩ | hadded
    · obtain ⟨t, -, hdecorates⟩ := hkept.kind
      rw [hkind] at hdecorates
      generalize hk : n.kind = k at hdecorates
      cases hdecorates with
      | var => exact ⟨n, hn, _, hk⟩
    · cases hadded <;> cases hkind
  obtain ⟨e, he, rfl, hekind⟩ := Program.exists_subexpr hplain hcomplete hn
  obtain ⟨info, rfl⟩ : ∃ info, e = .var info ident := by
    rw [hident] at hekind
    cases e <;> cases hekind
    exact ⟨_, rfl⟩
  obtain ⟨v, hv, whole, hconstruct⟩ := hvisited.exists_visit he rfl
  have hfresh : ident.decl = none :=
    (parse_fresh h _ ((hcomplete.holds_iff (.expr info.id n)).1 hn)).2 ident (by rw [hident]; rfl)
  have hkind' : (check options p).1.arena.exprKind? info.id = some (.var ident') := by
    rw [Arena.exprKind?, show info.id = (Expr.var info ident).id from rfl, hn', Option.map_some, hkind]
  obtain ⟨found, htype, htyped⟩ :=
    (hvisited.fits v hv).useTyped hframe (hvisited.ran v hv) hconstruct hfresh hkind' hd hm hfunc
  refine ⟨found, ?_, htyped⟩
  rwa [Arena.type?, show info.id = (Expr.var info ident).id from rfl, hn', Option.bind_some] at htype

/-- An array without a written size, used in its own list of initial values and behind it, and a name without a
declaration. -/
theorem check_types_uses_array : ∃ source p, (parse source).result = .ok p ∧
    p.arena.UsesTyped (check .standard p).1.arena := by
  let source := "int f(int x[]){return x[0];} int main(){int a[] = {f(a), 2}; f(a); return y;}"
  have hparses : (parse source).result.isOk = true := by decide +kernel
  obtain ⟨p, hp⟩ := exists_of_isOk hparses
  exact ⟨source, p, hp, check_types_uses hp .standard⟩

/-- A program without any error in which a variable is not used with the type that its declaration has behind the
check. -/
theorem use_in_own_initial_value : ∃ p,
    (parse "int f(int x[]){return x[0];} int main(){int a[] = {f(a), 2}; return 0;}").result = .ok p ∧
    (check .standard p).2 = [] ∧ ∃ id n ident d m, (check .standard p).1.arena.expr? id = some n ∧
      n.kind = .var ident ∧ ident.decl = some d ∧ (check .standard p).1.arena.decl? d = some m ∧
      m.kind.isFunction = false ∧ n.ty = some (.array .int none) ∧ m.ty = .array .int (some 2) := by
  let source := "int f(int x[]){return x[0];} int main(){int a[] = {f(a), 2}; return 0;}"
  let ident : Ident := ⟨"a", ⟨⟨1, 54⟩, ⟨1, 55⟩⟩, some ⟨2⟩⟩
  have hparses : (parse source).result.isOk = true := by decide +kernel
  obtain ⟨p, hp⟩ := exists_of_isOk hparses
  have hchecked : ((parse source).result.toOption.any fun p => decide ((check .standard p).2 = [] ∧
      ((check .standard p).1.arena.expr? ⟨2⟩).map (fun n => (n.kind, n.ty)) =
        some (.var ident, some (.array .int none)) ∧
      ((check .standard p).1.arena.decl? ⟨2⟩).map (fun m => (m.kind.isFunction, m.ty)) =
        some (false, .array .int (some 2)))) = true := by decide +kernel
  rw [hp] at hchecked
  obtain ⟨herrors, huse, hdecl⟩ := of_decide_eq_true hchecked
  obtain ⟨n, hn, hn'⟩ := Option.map_eq_some_iff.1 huse
  obtain ⟨m, hm, hm'⟩ := Option.map_eq_some_iff.1 hdecl
  obtain ⟨hkind, hused⟩ := Prod.mk.inj hn'
  obtain ⟨hfunc, hdeclared⟩ := Prod.mk.inj hm'
  exact ⟨p, hp, herrors, ⟨2⟩, n, ident, ⟨2⟩, m, hn, hkind, rfl, hm, hfunc, hused, hdeclared⟩

end VCLang
