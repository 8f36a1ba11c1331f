/-
What the names in scope stand for where a construct of a source tree is checked: for what a declaration of a source
tree can say, or for functions of the library.
-/
import VCLang.Proofs.Verdict.Program
namespace VCLang

open Typing

/-! ## What is declared -/

/-- What a declaration of a source tree can say of a name. No function returns an array. -/
def Signature.Declared : Signature → Prop
  | var ty => ty.Declared
  | func ret params => ret.Declared ∧ ret.isArray = false ∧ ∀ ty ∈ params, ty.Declared

/-- Each name in scope is declared in a source tree, or is that of one of some functions. -/
def Env.Declared (library : List Prototype) (env : Env) : Prop :=
  ∀ name x, env.retrieve name = some x → x.signature.Declared ∨ ∃ f ∈ library, x = f.binding

theorem Function.Plain.declared {f : Function} (hf : f.Plain) : f.binding.signature.Declared := by
  refine ⟨hf.ty, hf.scalar, fun ty hty => ?_⟩
  obtain ⟨q, hq, rfl⟩ := List.mem_map.1 hty
  exact hf.params q hq

/-- A function of the library says what stands in the table. -/
theorem Library.exists_entry {p : Program} {f : Prototype} (hf : f ∈ prototypesFor p) :
    ∃ e ∈ entries, f.ty = e.ret ∧ f.params.map Param.ty = e.params := by
  have hnumber {first : Nat} {es : List Entry} (hf : f ∈ number first es) :
      ∃ e ∈ es, f.ty = e.ret ∧ f.params.map Param.ty = e.params := by
    induction es generalizing first with
    | nil => cases hf
    | cons e es ih =>
      rcases List.mem_cons.1 hf with rfl | hf
      · refine ⟨e, List.mem_cons_self, rfl, ?_⟩
        refine List.ext_getElem? fun i => ?_
        rw [params, List.getElem?_map, List.getElem?_mapIdx, Option.map_map]
        exact Option.map_id'
      · obtain ⟨e', he', hsame⟩ := ih hf
        exact ⟨e', List.mem_cons_of_mem _ he', hsame⟩
  exact hnumber hf

/-- The functions of the library return what functions of a source tree can return. -/
theorem Library.ret_declared {p : Program} {f : Prototype} (hf : f ∈ prototypesFor p) :
    f.ty.Declared ∧ f.ty.isArray = false := by
  obtain ⟨e, he, hret, -⟩ := exists_entry hf
  have hentries : ∀ e ∈ entries, e.ret = .int ∨ e.ret = .void ∨ e.ret = .float := by decide
  rw [hret]
  rcases hentries e he with h | h | h <;> rw [h]
  · exact ⟨.int, rfl⟩
  · exact ⟨.void, rfl⟩
  · exact ⟨.float, rfl⟩

namespace Env.Declared

variable {library : List Prototype} {env : Env} {name : String} {d : DeclId}

theorem var {ty : Ty} (h : env.Declared library) (hx : env.retrieve name = some ⟨d, .var ty⟩) : ty.Declared := by
  rcases h name _ hx with h | ⟨f, -, heq⟩
  · exact h
  · cases heq

/-- What a function in scope returns is no array and no string. -/
theorem ret {p : Program} {ret : Ty} {params : List Ty} (h : env.Declared (Library.prototypesFor p))
    (hx : env.retrieve name = some ⟨d, .func ret params⟩) : ret.Declared ∧ ret.isArray = false := by
  rcases h name _ hx with h | ⟨f, hf, heq⟩
  · exact ⟨h.1, h.2.1⟩
  · cases heq
    exact Library.ret_declared hf

/-- A function to which a string may be passed is one of the library, and has a parameter for strings. -/
theorem library_of_string {p : Program} {ret param : Ty} {params : List Ty} {i : Nat}
    (h : env.Declared (Library.prototypesFor p)) (hx : env.retrieve name = some ⟨d, .func ret params⟩)
    (hi : params[i]? = some param) (hfits : argumentFits param .string = true) :
    ∃ f ∈ Library.prototypesFor p, d = f.id ∧ ∃ q : Param, f.params[i]? = some q ∧ q.ty = .string := by
  rcases h name _ hx with h | ⟨f, hf, heq⟩
  · cases h.2.2 _ (List.mem_of_getElem? hi) <;> cases hfits
  · cases heq
    obtain ⟨e, he, -, hparams⟩ := Library.exists_entry hf
    have hentries : ∀ e ∈ Library.entries, ∀ ty ∈ e.params, argumentFits ty .string = true → ty = .string := by decide
    obtain rfl : param = .string := hentries e he param (hparams ▸ List.mem_of_getElem? hi) hfits
    rw [List.getElem?_map, Option.map_eq_some_iff] at hi
    exact ⟨f, hf, rfl, hi⟩

end Env.Declared

/-! ## Parts of a source tree -/

theorem Expr.Plain.isList {e : Expr} (h : e.Plain) : e.isList = false := by
  cases h <;> rfl

theorem VarDecl.Plain.values {d : VarDecl} (h : d.Plain) : ∀ e ∈ d.values, e.PlainInit := by
  intro e he
  unfold VarDecl.values at he
  split at he
  · exact h.init e (Option.mem_toList.1 he)
  · rename_i hinit
    exact .expr (h.elements hinit e he)
  · exact h.init e (Option.mem_toList.1 he)

namespace Construct

variable {c : Construct}

/-- A construct of a source tree. -/
def Plain : Construct → Prop
  | expr _ e => e.PlainInit
  | var d => d.Plain
  | stmt s => s.Plain
  | func f => f.Plain

theorem Plain.parts (h : c.Plain) : ∀ d ∈ c.parts, d.Plain := by
  cases c with
  | expr whole e =>
    intro d hd
    obtain ⟨e', he', rfl⟩ := List.mem_map.1 hd
    exact .expr (Expr.PlainInit.children h e' he')
  | var d =>
    intro d' hd'
    obtain ⟨e, he, rfl⟩ := List.mem_map.1 hd'
    exact VarDecl.Plain.values h e he
  | stmt s =>
    intro d hd
    simp only [Construct.parts, List.mem_append, List.mem_map] at hd
    rcases hd with (⟨v, hv, rfl⟩ | ⟨e, he, rfl⟩) | ⟨t, ht, rfl⟩
    · exact Stmt.Plain.vars h v hv
    · exact .expr (Stmt.Plain.exprs h e he)
    · exact Stmt.Plain.stmts h t ht
  | func f =>
    obtain ⟨hdecls, hstmts⟩ := Function.Plain.parts h
    intro d hd
    simp only [Construct.parts, List.mem_append, List.mem_map] at hd
    rcases hd with ⟨v, hv, rfl⟩ | ⟨s, hs, rfl⟩
    · exact hdecls v hv
    · exact hstmts s hs

/-- What a construct of a source tree says of the name that it declares. -/
theorem Plain.introduces (h : c.Plain) : ∀ x ∈ c.introduces, x.2.signature.Declared := by
  cases c with
  | var d => exact List.forall_mem_singleton.2 (VarDecl.Plain.ty h)
  | func f => exact List.forall_mem_singleton.2 (Function.Plain.declared h)
  | _ => simp [Construct.introduces]

end Construct

theorem TopDecl.Plain.construct {d : TopDecl} (h : d.Plain) : d.construct.Plain := by
  cases h with
  | func hf => exact hf
  | var hd => exact hd

namespace Typing

variable {options : Options} {env env' : Env} {n n' : Nat} {errors : List Error}

/-! ## What a check makes of declarations -/

/-- A variable is of a type that can be declared even behind its check, which counts the elements of an array. -/
theorem ElaboratesInit.ty_declared {d d' : VarDecl} (h : ElaboratesInit env n d d' n' errors) (hd : d.ty.Declared) :
    d'.ty.Declared := by
  cases h with
  | none => exact hd
  | value => exact hd
  | list hty _ ht =>
    rw [hty] at hd
    cases hd with
    | array hscalar helement =>
      rw [ht]
      exact .array hscalar helement

theorem ElaboratesVars.declared {ds ds' : List VarDecl} (h : ElaboratesVars env n ds ds' env' n' errors)
    (hds : ∀ d ∈ ds, d.Plain) : ∀ d' ∈ ds', d'.bound.2.signature.Declared := by
  induction h with
  | nil => simp
  | cons hinit _ ih =>
    rw [List.forall_mem_cons] at hds ⊢
    exact ⟨hinit.ty_declared hds.1.ty, ih hds.2⟩

theorem ElaboratesTops.declared {ds ds' : List TopDecl} (h : ElaboratesTops env n ds ds' n' errors)
    (hds : ∀ d ∈ ds, d.Plain) : ∀ d' ∈ ds', d'.bound.2.signature.Declared := by
  induction h with
  | nil => simp
  | func hf _ ih =>
    rw [List.forall_mem_cons] at hds ⊢
    refine ⟨?_, ih hds.2⟩
    cases hf
    cases hds.1 with
    | func hplain => exact hplain.declared
  | var hinit _ ih =>
    rw [List.forall_mem_cons] at hds ⊢
    refine ⟨?_, ih hds.2⟩
    cases hds.1 with
    | var hplain => exact hinit.ty_declared hplain.ty

/-! ## Where constructs are checked -/

namespace Visit

variable {library : List Prototype} {v w : Visit}

/-- A construct of a source tree is checked where each name is declared; a statement is in a function. -/
structure Scoped (library : List Prototype) (v : Visit) : Prop where
  plain : v.construct.Plain
  env : v.place.env.Declared library
  inside : ∀ s, v.construct = .stmt s → ∃ f, v.place.function = some f ∧ f.ty.Declared

theorem Ran.declares (h : v.Ran options) (hplain : v.construct.Plain) :
    ∀ x ∈ v.result.declares, x.2.signature.Declared := by
  obtain ⟨after, h⟩ := h
  obtain ⟨k, c, c', errors⟩ := v
  cases c with
  | expr | var =>
    obtain ⟨_, -, hc'⟩ := Check.ends_map.1 h
    obtain rfl : c' = _ := hc'
    simp [Construct.declares]
  | stmt s =>
    obtain ⟨s', hs, hc'⟩ := Check.ends_map.1 h
    obtain rfl : c' = .stmt s' := hc'
    obtain ⟨n', hs, -⟩ := elaboratesStmtAs options s hs
    cases hs with
    | compound hvars => exact List.forall_mem_map.2 (hvars.declared (Stmt.Plain.vars hplain))
    | _ => simp [Construct.declares]
  | func f =>
    obtain ⟨f', hf, hc'⟩ := Check.ends_map.1 h
    obtain rfl : c' = .func f' := hc'
    obtain ⟨n', hf, -⟩ := elaborates_checkFunction hf
    have hfunc : f.Plain := hplain
    dsimp only at hf
    cases hf with
    | mk _ hvars =>
      exact List.forall_mem_append.2
        ⟨List.forall_mem_map.2 hfunc.params, List.forall_mem_map.2 (hvars.declared hfunc.parts.1)⟩

/-- The parts of a construct are checked where each name is declared if the construct is. -/
theorem Scoped.part (h : v.Scoped library) (hran : v.Ran options) (hpart : w.PartOf v)
    (hmem : w.construct ∈ v.construct.parts) : w.Scoped library := by
  refine ⟨h.plain.parts _ hmem, fun name x hx => ?_, fun s hs => ?_⟩
  · obtain ⟨bs, hbs, henv⟩ := hpart.env
    rw [henv] at hx
    rcases mem_bindAll hx with hx | hx
    · exact .inl (hran.declares h.plain _ (hbs hx))
    · rcases Construct.retrieve_inner hx with hx | ⟨hx, -⟩
      · exact .inl (h.plain.introduces _ hx)
      · exact h.env name x hx
  · rw [hpart.function]
    cases hv : v.construct with
    | expr whole e => simp [hs, hv, Construct.parts] at hmem
    | var d => simp [hs, hv, Construct.parts] at hmem
    | stmt t => exact h.inside t hv
    | func f =>
      have hplain := h.plain
      rw [hv] at hplain
      exact ⟨f.toPrototype, rfl, Function.Plain.ty hplain⟩

end Visit

/-- All that is in a source tree is checked where each name is declared. -/
theorem Visited.scoped {p : Program} {vs all : List Visit} (h : Visited options p vs all) (hplain : p.Plain) :
    ∀ v ∈ all, v.Scoped (Library.prototypesFor p) := by
  obtain ⟨ds', n', errors, own, htops, -, hcheck⟩ := check_elaborates options p
  have hresults : ∀ x ∈ (check options p).1.decls.map TopDecl.bound, x.2.signature.Declared := by
    rw [hcheck]
    exact List.forall_mem_map.2 (htops.declared hplain.decls)
  have hwhole : ∀ v ∈ vs, v.Scoped (Library.prototypesFor p) := by
    intro v hv
    have hmem : v.construct ∈ p.decls.map TopDecl.construct := h.constructs ▸ List.mem_map_of_mem hv
    obtain ⟨d, hd, hdv⟩ := List.mem_map.1 hmem
    refine ⟨hdv ▸ (hplain.decls d hd).construct, fun name x hx => ?_, fun s hs => ?_⟩
    · obtain ⟨bs, hbs, henv⟩ := h.places v hv
      rw [henv] at hx
      rcases Visit.mem_bindAll hx with hx | hx
      · exact .inl (hresults _ (hbs hx))
      · obtain ⟨f, hf, heq⟩ := mem_library hx
        exact .inr ⟨f, hf, (Prod.mk.inj heq).2⟩
    · rw [hs] at hdv
      cases d <;> cases hdv
  have hall := h.walk.forall_mem (P := fun v => v.Ran options ∧ v.Scoped (Library.prototypesFor p))
    (fun v hv => ⟨h.ran v (h.walk.subset hv), hwhole v hv⟩)
    fun v w hv hw hpart hmem => ⟨hw, hv.2.part hv.1 hpart hmem⟩
  exact fun v hv => (hall v hv).2

end Typing

end VCLang
