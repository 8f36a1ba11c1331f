/-
The place where a construct of a program is checked. Of each name in scope the check knows what the declaration of
the name says behind the check, or before it while the declaration itself is being checked; and it counts the loops
that the construct is in.
-/
import VCLang.Proofs.Arena.Frame
import VCLang.Proofs.Elaboration.Resolution
import VCLang.Proofs.Typing.Soundness
import VCLang.Proofs.Verdict.Walk
namespace VCLang

open Typing

/-! ## Nodes around a node -/

/-- Whether a statement is a loop. -/
def StmtKind.isLoop : StmtKind → Bool
  | whileStmt _ _ => true
  | forStmt _ _ _ _ => true
  | _ => false

@[simp] theorem Stmt.isLoop_kind (s : Stmt) : s.kind.isLoop = s.isLoop := by cases s <;> rfl

namespace Arena

variable {a b : Arena} {x y q : NodeId}

/-- A node is a loop. -/
def IsLoop (a : Arena) (x : NodeId) : Prop := ∃ id n, x = .stmt id ∧ a.stmt? id = some n ∧ n.kind.isLoop = true

/-- One of the nodes that a node is part of is a loop. -/
def InLoop (a : Arena) (x : NodeId) : Prop := ∃ y, a.Under x y ∧ a.IsLoop y

/-- A statement is a loop in both forms. -/
theorem isLoop_stmt {s : Stmt} {parent : NodeId} (ha : a.Has (s.entries parent)) :
    a.IsLoop (.stmt s.id) ↔ s.isLoop = true := by
  have hnode : a.stmt? s.id = some ⟨s.kind, s.span, some parent⟩ := ha _ (root_mem s parent)
  constructor
  · rintro ⟨id, n, hid, hn, hloop⟩
    cases hid
    cases hnode.symm.trans hn
    rwa [Stmt.isLoop_kind] at hloop
  · intro hloop
    exact ⟨s.id, _, rfl, hnode, by rwa [Stmt.isLoop_kind]⟩

/-! ## What nodes say -/

/-- The type of an expression; `error` for one without a type. -/
def typeOf (a : Arena) (id : ExprId) : Ty := (a.type? id).getD .error

/-- What a declaration says of the name it declares. -/
def signature (a : Arena) (n : DeclNode) : Signature :=
  if n.kind.isFunction then .func n.ty (n.kind.params.filterMap fun p => (a.decl? p).map (·.ty)) else .var n.ty

/-- The name that a declaration declares, and what it says of it. -/
def declared? (a : Arena) (d : DeclId) : Option (String × Signature) :=
  (a.decl? d).map fun n => (n.ident.spelling, a.signature n)

/-- What is declared by the declaration that the name at a node is bound to. -/
def meaning? (a : Arena) (x : NodeId) : Option (String × Signature) :=
  (a.identOf x).bind fun i => i.decl.bind a.declared?

theorem declared_var {d : VarDecl} {parent : NodeId} (ha : a.Has (d.entries parent)) :
    a.declared? d.id = some (d.ident.spelling, .var d.ty) := by
  rw [VarDecl.entries, has_append] at ha
  simp [declared?, ha.2.decl, signature, isFunction_kind]

theorem declared_param {ps : List Param} {p : Param} {parent : NodeId} (ha : a.Has (ps.map (Param.entry parent)))
    (hp : p ∈ ps) : a.declared? p.id = some (p.ident.spelling, .var p.ty) := by
  simp [declared?, ha.param hp, signature, DeclKind.isFunction]

/-- A function, with a body or without one. -/
theorem declared_func {f : Prototype} {body : Option StmtId} {hasReturn : Bool} {owner : Option NodeId}
    (hparams : a.Has (f.params.map (Param.entry (.decl f.id))))
    (hnode : a.decl? f.id = some ⟨.func (f.params.map Param.id) body hasReturn, f.ident, f.ty, f.span, owner⟩) :
    a.declared? f.id = some (f.ident.spelling, f.binding.signature) := by
  have htypes : (f.params.map Param.id).filterMap (fun p => (a.decl? p).map (·.ty)) = f.params.map Param.ty := by
    rw [List.filterMap_map, ← List.filterMap_eq_map]
    refine List.filterMap_congr fun p hp => ?_
    simp [hparams.param hp]
  simp [declared?, hnode, signature, DeclKind.isFunction, DeclKind.params, htypes, Prototype.binding]

theorem declared_function {f : Function} (ha : a.Has f.entries) :
    a.declared? f.id = some (f.ident.spelling, f.binding.signature) := by
  rw [Function.entries, has_append, has_append] at ha
  exact declared_func ha.1.1 ha.2.decl

theorem declared_prototype {f : Prototype} (ha : a.Has f.entries) :
    a.declared? f.id = some (f.ident.spelling, f.binding.signature) := by
  rw [Prototype.entries, has_append] at ha
  exact declared_func ha.1 ha.2.decl

theorem DeclDecorates.isFunction {k k' : DeclKind} (h : DeclDecorates a b k k') : k'.isFunction = k.isFunction := by
  cases h <;> rfl

/-- A declaration keeps its name behind a check, and a function stays a function. -/
theorem Frame.declared (h : Frame a b) {d : DeclId} {name : String} {s : Signature}
    (hd : a.declared? d = some (name, s)) : ∃ s', b.declared? d = some (name, s') ∧
      ((∃ ret params, s = .func ret params) ↔ ∃ ret params, s' = .func ret params) := by
  obtain ⟨n, hn, heq⟩ := Option.map_eq_some_iff.1 hd
  obtain ⟨n', hn', hkept⟩ := h.decls d n hn
  cases heq
  refine ⟨b.signature n', by simp [declared?, hn', hkept.ident], ?_⟩
  rw [signature, signature, hkept.kind.isFunction]
  split_ifs <;> simp

end Arena

/-! ## Constructs in a flat form -/

/-- The initial value of a variable stands under it, and the elements of a list under the list. -/
theorem VarDecl.held_values {a : Arena} {d : VarDecl} {parent : NodeId} (ha : a.Has (d.entries parent)) {e : Expr}
    (he : e ∈ d.values) : a.Has (e.entries (.decl d.id)) ∨
      ∃ info : ExprInfo, a.Has (e.entries (.expr info.id)) ∧ a.parentOf (.expr info.id) = some (.decl d.id) := by
  rw [entries, Expr.entriesOption_eq, Arena.has_append] at ha
  unfold values at he
  split at he
  · exact .inl (ha.1.of_mem he)
  · rename_i info elements _ _ hinit
    rw [hinit] at ha
    have hlist := ha.1.of_mem (List.mem_singleton_self _)
    have hparent := parentOf_expr hlist
    rw [Expr.entries_eq, Arena.has_append] at hlist
    exact .inr ⟨info, hlist.1.of_mem he, hparent⟩
  · exact .inl (ha.1.of_mem he)

namespace Construct

variable {a b : Arena} {c d : Construct} {parent : NodeId}

/-- The name that a construct declares for its own parts as well. -/
def introduces : Construct → List (String × Binding)
  | var d => [d.bound]
  | func f => [(f.ident.spelling, f.binding)]
  | _ => []

/-- What is in scope at the first part of a construct: the name that the construct declares, and the names from
before but that one. -/
theorem retrieve_inner {env : Env} {name : String} {x : Binding} (h : (c.inner env).retrieve name = some x) :
    (name, x) ∈ c.introduces ∨ env.retrieve name = some x ∧ ∀ y ∈ c.introduces, y.1 ≠ name := by
  have hinsert {name' : String} {y : Binding} (h : (env.insert name' y).retrieve name = some x) :
      (name, x) ∈ [(name', y)] ∨ env.retrieve name = some x ∧ ∀ z ∈ [(name', y)], z.1 ≠ name := by
    by_cases heq : name = name'
    · subst heq
      rw [Scopes.retrieve_insert_self] at h
      exact .inl (by simp [Option.some.inj h])
    · rw [Scopes.retrieve_insert_ne _ _ heq] at h
      exact .inr ⟨h, by simpa using fun h => heq h.symm⟩
  cases c with
  | expr whole e => exact .inr ⟨h, by simp [introduces]⟩
  | var d => exact hinsert h
  | stmt s =>
    refine .inr ⟨?_, by simp [introduces]⟩
    cases s with
    | compound info decls stmts => rwa [inner, Scopes.retrieve_openScope] at h
    | _ => exact h
  | func f =>
    rw [inner, Function.inner, Scopes.retrieve_openScope] at h
    exact hinsert h

/-- A construct is a declaration of the name that it introduces. -/
theorem declared_introduces (ha : a.Has (c.entries parent)) :
    ∀ x ∈ c.introduces, c.node = .decl x.2.decl ∧ a.declared? x.2.decl = some (x.1, x.2.signature) := by
  cases c with
  | var d => exact List.forall_mem_singleton.2 ⟨rfl, Arena.declared_var ha⟩
  | func f => exact List.forall_mem_singleton.2 ⟨rfl, Arena.declared_function ha⟩
  | _ => simp [introduces]

/-- A declaration introduces its name. -/
theorem exists_introduces {d : DeclId} (h : c.node = .decl d) : ∃ x ∈ c.introduces, x.2.decl = d := by
  cases c with
  | var d =>
    cases h
    exact ⟨_, List.mem_singleton_self _, rfl⟩
  | func f =>
    cases h
    exact ⟨_, List.mem_singleton_self _, rfl⟩
  | _ => cases h

/-- What is declared in front of parts of a construct are variables. -/
theorem declared_declares (ha : a.Has (c.entries parent)) :
    ∀ x ∈ c.declares, ∃ ty, x.2.signature = .var ty ∧ a.declared? x.2.decl = some (x.1, .var ty) := by
  have hvars {s : Stmt} (ha : a.Has (s.entries parent)) : ∀ x ∈ s.vars.map VarDecl.bound,
      ∃ ty, x.2.signature = .var ty ∧ a.declared? x.2.decl = some (x.1, .var ty) := by
    intro x hx
    obtain ⟨d, hd, rfl⟩ := List.mem_map.1 hx
    exact ⟨d.ty, rfl, Arena.declared_var ((held_stmt ha).1 d hd)⟩
  cases c with
  | stmt s =>
    cases s with
    | compound info decls stmts => exact hvars ha
    | _ => simp [declares]
  | func f =>
    rw [entries, Function.entries, Arena.has_append, Arena.has_append] at ha
    rw [declares, List.forall_mem_append]
    refine ⟨fun x hx => ?_, ?_⟩
    · obtain ⟨p, hp, rfl⟩ := List.mem_map.1 hx
      exact ⟨p.ty, rfl, Arena.declared_param ha.1.1 hp⟩
    · intro x hx
      obtain ⟨d, hd, rfl⟩ := List.mem_map.1 hx
      exact ⟨d.ty, rfl, Arena.declared_var ((held_stmt ha.1.2).1 d hd)⟩
  | _ => simp [declares]

/-- A construct is a loop in both forms. -/
theorem isLoop_node (ha : a.Has (c.entries parent)) : a.IsLoop c.node ↔ c.isLoop = true := by
  have hno {x : NodeId} (hx : ∀ id, x ≠ .stmt id) : a.IsLoop x ↔ false = true := by
    constructor
    · rintro ⟨id, _, rfl, -⟩
      exact absurd rfl (hx id)
    · rintro ⟨⟩
  cases c with
  | stmt s => exact Arena.isLoop_stmt ha
  | _ => exact hno (by simp [node])

theorem parentOf_node (ha : a.Has (c.entries parent)) (hc : ∀ f, c ≠ func f) : a.parentOf c.node = some parent := by
  cases c with
  | expr whole e => exact parentOf_expr ha
  | var d =>
    rw [entries, VarDecl.entries, Arena.has_append] at ha
    rw [node, Arena.parentOf, ha.2.decl, Option.bind_some]
  | stmt s => exact parentOf_stmt ha
  | func f => exact absurd rfl (hc f)

/-- A part of a construct stands under it. Between the two there is at most a list of initial values or the body of
a function: neither is a declaration or a loop. -/
theorem part_under (ha : a.Has (c.entries parent)) (hd : d ∈ c.parts) : (∃ parent', a.Has (d.entries parent')) ∧
    ∀ y, (∃ i, y = .decl i) ∨ a.IsLoop y → (a.Under d.node y ↔ y = c.node ∨ a.Under c.node y) := by
  have hno {d : Construct} (hd : d ∈ c.parts) : ∀ f, d ≠ func f := by
    rintro f rfl
    cases c <;> simp [parts] at hd
  have hdirect (h : a.Has (d.entries c.node)) : (∃ parent', a.Has (d.entries parent')) ∧
      ∀ y, (∃ i, y = .decl i) ∨ a.IsLoop y → (a.Under d.node y ↔ y = c.node ∨ a.Under c.node y) :=
    ⟨⟨_, h⟩, fun y _ => Arena.under_iff (parentOf_node h (hno hd))⟩
  have hbetween {q : NodeId} (h : a.Has (d.entries q)) (hq : a.parentOf q = some c.node)
      (hne : ∀ i, q ≠ .decl i) (hloop : ¬ a.IsLoop q) : (∃ parent', a.Has (d.entries parent')) ∧
      ∀ y, (∃ i, y = .decl i) ∨ a.IsLoop y → (a.Under d.node y ↔ y = c.node ∨ a.Under c.node y) := by
    refine ⟨⟨_, h⟩, fun y hy => ?_⟩
    have hy' : y ≠ q := by
      rintro rfl
      rcases hy with ⟨i, rfl⟩ | hy
      · exact hne i rfl
      · exact hloop hy
    rw [Arena.under_iff (parentOf_node h (hno hd)), Arena.under_iff hq, or_iff_right hy']
  cases c with
  | expr whole e =>
    obtain ⟨e', he', rfl⟩ := List.mem_map.1 hd
    rw [entries, Expr.entries_eq, Arena.has_append] at ha
    exact hdirect (ha.1.of_mem he')
  | var v =>
    obtain ⟨e, he, rfl⟩ := List.mem_map.1 hd
    rcases VarDecl.held_values ha he with h | ⟨info, h, hparent⟩
    · exact hdirect h
    · refine hbetween h hparent (by simp) ?_
      rintro ⟨_, _, ⟨⟩, -⟩
  | stmt s =>
    obtain ⟨hvars, hexprs, hstmts⟩ := held_stmt ha
    simp only [parts, List.mem_append, List.mem_map] at hd
    rcases hd with (⟨v, hv, rfl⟩ | ⟨e, he, rfl⟩) | ⟨t, ht, rfl⟩
    · exact hdirect (hvars v hv)
    · exact hdirect (hexprs e he)
    · exact hdirect (hstmts t ht)
  | func f =>
    rw [entries, Function.entries, Arena.has_append, Arena.has_append] at ha
    obtain ⟨hvars, -, hstmts⟩ := held_stmt ha.1.2
    have hbody : a.parentOf (.stmt f.body.id) = some (.decl f.id) := parentOf_stmt ha.1.2
    have hloop : ¬ a.IsLoop (.stmt f.body.id) := by
      intro h
      cases (Arena.isLoop_stmt ha.1.2).1 h
    simp only [parts, List.mem_append, List.mem_map] at hd
    rcases hd with ⟨v, hv, rfl⟩ | ⟨t, ht, rfl⟩
    · exact hbetween (hvars v hv) hbody (by simp) hloop
    · exact hbetween (hstmts t ht) hbody (by simp) hloop

end Construct

namespace Typing.Visit

open Arena Check

variable {options : Options} {a b : Arena} {v w : Visit}

/-! ## Places -/

/-- Whether what is checked is an expression. -/
def isExpr (v : Visit) : Prop := ∃ whole e, v.construct = .expr whole e

/-- The place of a check, with the flat forms from before the check of the program and behind it. -/
structure Fits (a b : Arena) (v : Visit) : Prop where
  source : ∃ parent, a.Has (v.construct.entries parent)
  result : ∃ parent, b.Has (v.result.entries parent)
  /-- While a declaration is checked, its name is known as it is declared in the source. -/
  inside : ∀ name x, v.place.env.retrieve name = some x → a.Under v.construct.node (.decl x.decl) →
    a.declared? x.decl = some (name, x.signature)
  /-- All other names are known as the whole check leaves them. -/
  outside : ∀ name x, v.place.env.retrieve name = some x → ¬ a.Under v.construct.node (.decl x.decl) →
    b.declared? x.decl = some (name, x.signature)
  /-- A function is known as it is, even while it is checked. -/
  functions : ∀ name x, v.place.env.retrieve name = some x → (∃ ret params, x.signature = .func ret params) →
    b.declared? x.decl = some (name, x.signature)
  above : ¬ v.isExpr → ∀ d, a.Under v.construct.node (.decl d) →
    ∃ name ret params, a.declared? d = some (name, .func ret params)
  loops : v.place.loopDepth = 0 ↔ ¬ a.InLoop v.construct.node

/-- Expressions are no parts of what declares names in front of its parts. -/
theorem Ran.declares_eq_nil (h : v.Ran options) (hw : w.isExpr) (hpart : w.construct ∈ v.construct.parts) :
    v.result.declares = [] := by
  obtain ⟨whole, e, hw⟩ := hw
  obtain ⟨after, h⟩ := h
  obtain ⟨k, c, c', errors⟩ := v
  rw [hw] at hpart
  cases c with
  | expr | var =>
    obtain ⟨_, -, hc'⟩ := ends_map.1 h
    obtain rfl : c' = _ := hc'
    rfl
  | stmt s =>
    obtain ⟨s', hs, hc'⟩ := ends_map.1 h
    obtain rfl : c' = .stmt s' := hc'
    obtain ⟨n', hs, -⟩ := elaboratesStmtAs options s hs
    cases hs with
    | compound => simp [Construct.parts, Stmt.exprs] at hpart
    | _ => rfl
  | func f => simp [Construct.parts] at hpart

theorem mem_bindAll {α : Type} {s : Scopes α} {bs : List (String × α)} {name : String} {x : α}
    (h : (s.bindAll bs).retrieve name = some x) : (name, x) ∈ bs ∨ s.retrieve name = some x := by
  induction bs generalizing s with
  | nil => exact .inr h
  | cons y bs ih =>
    rcases ih h with h | h
    · exact .inl (List.mem_cons_of_mem _ h)
    · rcases Scopes.of_retrieve_insert h with ⟨rfl, rfl⟩ | h
      · exact .inl List.mem_cons_self
      · exact .inr h

theorem keepsPrototype {env : Env} {n n' : Nat} {f f' : Function} {errors : List Error}
    (h : ElaboratesFunction env n f f' n' errors) : f'.toPrototype = f.toPrototype := by
  cases h
  rfl

/-- A function keeps its name, its type and its parameters. -/
theorem Ran.declared_introduces {parent : NodeId} (h : v.Ran options) (hb : b.Has (v.result.entries parent)) :
    ∀ x ∈ v.construct.introduces, (∃ ret params, x.2.signature = .func ret params) →
      b.declared? x.2.decl = some (x.1, x.2.signature) := by
  obtain ⟨after, h⟩ := h
  obtain ⟨k, c, c', errors⟩ := v
  cases c with
  | func f =>
    obtain ⟨f', hf, hc'⟩ := ends_map.1 h
    obtain rfl : c' = .func f' := hc'
    obtain ⟨n', hf, -⟩ := elaborates_checkFunction hf
    have hdeclared : b.declared? f'.toPrototype.id =
      some (f'.toPrototype.ident.spelling, f'.toPrototype.binding.signature) := declared_function hb
    rw [keepsPrototype hf] at hdeclared
    exact List.forall_mem_singleton.2 fun _ => hdeclared
  | var d =>
    refine List.forall_mem_singleton.2 ?_
    rintro ⟨ret, params, ⟨⟩⟩
  | expr whole e => exact fun x hx => absurd hx (by simp [Construct.introduces])
  | stmt s => exact fun x hx => absurd hx (by simp [Construct.introduces])

/-- Of a name in scope at a part: it is introduced by the construct, or declared in front of the part, or it is known
from before under another name than the construct introduces. -/
theorem PartOf.known {parent : NodeId} (hpart : w.PartOf v) (hran : v.Ran options)
    (hmem : w.construct ∈ v.construct.parts) (hb : b.Has (v.result.entries parent)) {name : String} {x : Binding}
    (hx : w.place.env.retrieve name = some x) :
    (¬ w.isExpr ∧ ∃ ty, x.signature = .var ty ∧ b.declared? x.decl = some (name, .var ty)) ∨
      (name, x) ∈ v.construct.introduces ∨
        v.place.env.retrieve name = some x ∧ ∀ y ∈ v.construct.introduces, y.1 ≠ name := by
  obtain ⟨bs, hbs, henv⟩ := hpart.env
  rw [henv] at hx
  rcases mem_bindAll hx with hx | hx
  · refine .inl ⟨fun hw => ?_, Construct.declared_declares hb _ (hbs hx)⟩
    have hnil := hbs hx
    rw [hran.declares_eq_nil hw hmem] at hnil
    cases hnil
  · exact .inr (Construct.retrieve_inner hx)

/-- A name that the construct does not introduce is not declared by it. -/
theorem Fits.ne_introduced (hframe : a.Frame b) (h : v.Fits a b) {name : String} {x : Binding}
    (hx : v.place.env.retrieve name = some x) (hne : ∀ y ∈ v.construct.introduces, y.1 ≠ name) :
    v.construct.node ≠ .decl x.decl := by
  intro hnode
  obtain ⟨parent, ha⟩ := h.source
  obtain ⟨y, hy, hyx⟩ := Construct.exists_introduces hnode
  obtain ⟨-, hdeclared⟩ := Construct.declared_introduces ha y hy
  rw [hyx] at hdeclared
  by_cases hunder : a.Under v.construct.node (.decl x.decl)
  · have hsame := hdeclared.symm.trans (h.inside name x hx hunder)
    exact hne y hy (congrArg Prod.fst (Option.some.inj hsame))
  · obtain ⟨s, hs, -⟩ := hframe.declared hdeclared
    have hsame := hs.symm.trans (h.outside name x hx hunder)
    exact hne y hy (congrArg Prod.fst (Option.some.inj hsame))

/-- What a part that is no expression is part of, as far as it is declared, are functions. -/
theorem Fits.above_part (h : v.Fits a b) (hmem : w.construct ∈ v.construct.parts) (hw : ¬ w.isExpr) (d : DeclId)
    (hd : v.construct.node = .decl d ∨ a.Under v.construct.node (.decl d)) :
    ∃ name ret params, a.declared? d = some (name, .func ret params) := by
  obtain ⟨parent, ha⟩ := h.source
  -- the parts of an expression and of a variable are expressions
  have hexprs {es : List Expr} (hparts : v.construct.parts = es.map (.expr false)) : w.isExpr := by
    rw [hparts] at hmem
    obtain ⟨e, -, he⟩ := List.mem_map.1 hmem
    exact ⟨_, _, he.symm⟩
  cases hv : v.construct with
  | expr whole e => exact absurd (hexprs (by rw [hv]; rfl)) hw
  | var d => exact absurd (hexprs (by rw [hv]; rfl)) hw
  | stmt s =>
    have hv' : ¬ v.isExpr := by
      rintro ⟨whole, e, he⟩
      cases hv.symm.trans he
    refine h.above hv' d (hd.resolve_left fun hnode => ?_)
    rw [hv] at hnode
    cases hnode
  | func f =>
    have hv' : ¬ v.isExpr := by
      rintro ⟨whole, e, he⟩
      cases hv.symm.trans he
    rcases hd with hnode | hd
    · rw [hv] at hnode ha
      cases hnode
      exact ⟨_, _, _, declared_function ha⟩
    · exact h.above hv' d hd

/-- Where a construct is checked at its place, so are its parts. -/
theorem Fits.part (hframe : a.Frame b) (h : v.Fits a b) (hran : v.Ran options) (hpart : w.PartOf v)
    (hmem : w.construct ∈ v.construct.parts) : w.Fits a b := by
  obtain ⟨parent, ha⟩ := h.source
  obtain ⟨parent', hb⟩ := h.result
  obtain ⟨hsource, hunder⟩ := Construct.part_under ha hmem
  have hdecl (d : DeclId) : a.Under w.construct.node (.decl d) ↔
      v.construct.node = .decl d ∨ a.Under v.construct.node (.decl d) := by
    rw [hunder _ (.inl ⟨d, rfl⟩), eq_comm]
  have hknown {name : String} {x : Binding} (hx : w.place.env.retrieve name = some x) := hpart.known hran hmem hb hx
  refine ⟨hsource, hpart.held b parent' hb, ?_, ?_, ?_, fun hw d hd => h.above_part hmem hw d ((hdecl d).1 hd), ?_⟩
  · intro name x hx hat
    rcases hknown hx with ⟨hw, ty, hty, hdeclared⟩ | hx | ⟨hx, hne⟩
    · -- a variable, which nothing but an expression is part of
      obtain ⟨name', ret, params, hfunc⟩ := h.above_part hmem hw _ ((hdecl _).1 hat)
      obtain ⟨s', hs', hiff⟩ := hframe.declared hfunc
      cases hdeclared.symm.trans hs'
      obtain ⟨ret', params', heq⟩ := hiff.1 ⟨ret, params, rfl⟩
      cases heq
    · exact (Construct.declared_introduces ha _ hx).2
    · exact h.inside name x hx (((hdecl _).1 hat).resolve_left (h.ne_introduced hframe hx hne))
  · intro name x hx hat
    rcases hknown hx with ⟨hw, ty, hty, hdeclared⟩ | hx | ⟨hx, hne⟩
    · rw [hty]
      exact hdeclared
    · exact absurd ((hdecl _).2 (.inl (Construct.declared_introduces ha _ hx).1)) hat
    · exact h.outside name x hx fun hv => hat ((hdecl _).2 (.inr hv))
  · intro name x hx hfunc
    rcases hknown hx with ⟨-, ty, hty, -⟩ | hx | ⟨hx, -⟩
    · obtain ⟨ret, params, hfunc⟩ := hfunc
      cases hty.symm.trans hfunc
    · exact hran.declared_introduces hb _ hx hfunc
    · exact h.functions name x hx hfunc
  · have hloops : a.InLoop w.construct.node ↔ v.construct.isLoop = true ∨ a.InLoop v.construct.node := by
      rw [← Construct.isLoop_node ha]
      constructor
      · rintro ⟨y, hy, hloop⟩
        rcases (hunder y (.inr hloop)).1 hy with rfl | hy
        · exact .inl hloop
        · exact .inr ⟨y, hy, hloop⟩
      · rintro (hloop | ⟨y, hy, hloop⟩)
        · exact ⟨_, (hunder _ (.inr hloop)).2 (.inl rfl), hloop⟩
        · exact ⟨y, (hunder y (.inr hloop)).2 (.inr hy), hloop⟩
    rw [hpart.loopDepth, hloops, not_or, ← h.loops]
    cases v.construct.isLoop <;> simp

/-- Of an expression the flat form behind the check says what the check has found. -/
theorem Fits.typed (h : v.Fits a b) (hran : v.Ran options) : v.TypedBy b.typeOf := by
  intro whole whole' e e' hv hv'
  obtain ⟨after, hends⟩ := hran
  obtain ⟨parent, hb⟩ := h.result
  rw [hv, hv'] at hends
  rw [hv'] at hb
  obtain ⟨e'', he, hc⟩ := ends_map.1 hends
  obtain ⟨n', he, -⟩ := ends_onExpr.1 he
  cases hc
  have helaborates := elaborates_checkExpr he
  rw [← helaborates.id, typeOf, (Has.expr hb).2, helaborates.typed, Option.getD_some]

/-- Behind the check a name in scope has its declaration, and it is a function there if it is known as one. -/
theorem Fits.declared (hframe : a.Frame b) (h : v.Fits a b) {name : String} {x : Binding}
    (hx : v.place.env.retrieve name = some x) : ∃ s, b.declared? x.decl = some (name, s) ∧
      ((∃ ret params, x.signature = .func ret params) ↔ ∃ ret params, s = .func ret params) := by
  by_cases hunder : a.Under v.construct.node (.decl x.decl)
  · exact hframe.declared (h.inside name x hx hunder)
  · exact ⟨x.signature, h.outside name x hx hunder, Iff.rfl⟩

/-- A name is not bound before the check. -/
theorem Fits.unbound (h : v.Fits a b) (hfresh : ∀ x, a.Holds x → x.Fresh) {whole : Bool} {e : Expr} {ident : Ident}
    (hv : v.construct = .expr whole e) (hident : e.kind.ident? = some ident) : ident.decl = none := by
  obtain ⟨parent, ha⟩ := h.source
  rw [hv] at ha
  exact (hfresh _ (ha _ (entry_mem_entries e parent))).2 ident hident

/-- The name of an expression is bound as the scopes say, but for `main`, which is not called. -/
theorem Fits.bound (h : v.Fits a b) (hran : v.Ran options) (hfresh : ∀ x, a.Holds x → x.Fresh) {whole : Bool}
    {e : Expr} {ident : Ident} (hv : v.construct = .expr whole e) (hident : e.kind.ident? = some ident)
    (hmain : ∀ info args, e = .call info ident args → ident.spelling ≠ "main") :
    ∃ ident', b.identOf (.expr e.id) = some ident' ∧
      ident'.decl = (v.place.env.retrieve ident.spelling).map (·.decl) := by
  have hunbound := h.unbound hfresh hv hident
  obtain ⟨after, hends⟩ := hran
  obtain ⟨parent', hb⟩ := h.result
  rw [hv] at hends
  obtain ⟨e', he, hc⟩ := ends_map.1 hends
  obtain ⟨n', he, -⟩ := ends_onExpr.1 he
  rw [hc] at hb
  have hroot : b.identOf (.expr e.id) = e'.kind.ident? := by
    rw [← (elaborates_checkExpr he).id]
    exact Holds.identOf (hb _ (entry_mem_entries e' parent'))
  -- the name in the checked expression is bound as it is used
  have huse {span : Span} {ident' : Ident} {t : Ty} {own : List Error}
      (huse : Uses v.place.env ident span ident' t own) (he' : e'.kind.ident? = some ident') :
      ∃ ident', b.identOf (.expr e.id) = some ident' ∧
        ident'.decl = (v.place.env.retrieve ident.spelling).map (·.decl) := by
    refine ⟨ident', hroot.trans he', ?_⟩
    cases huse with
    | unbound hnone => rw [hunbound, hnone]; rfl
    | bound hsome => rw [hsome]; rfl
  have helaborates := elaborates_checkExpr he
  generalize v.errors = errors at helaborates
  cases helaborates with
  | var hname | arrayAccess _ hname | call _ hname =>
    cases hident
    exact huse hname rfl
  | mainCall hspelling =>
    cases hident
    exact absurd hspelling (hmain _ _ rfl)
  | _ => cases hident

/-- What the name of an expression stands for behind the check is what its declaration says there. -/
theorem Fits.meaning (h : v.Fits a b) (hran : v.Ran options) (hfresh : ∀ x, a.Holds x → x.Fresh) {whole : Bool}
    {e : Expr} {ident : Ident} (hv : v.construct = .expr whole e) (hident : e.kind.ident? = some ident)
    (hmain : ∀ info args, e = .call info ident args → ident.spelling ≠ "main") :
    b.meaning? (.expr e.id) = (v.place.env.retrieve ident.spelling).bind fun x => b.declared? x.decl := by
  obtain ⟨ident', hident', hdecl⟩ := h.bound hran hfresh hv hident hmain
  rw [meaning?, hident', Option.bind_some, hdecl, Option.bind_map]
  rfl

end Typing.Visit

end VCLang
