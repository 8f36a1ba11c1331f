/-
Spans in the flat form of a program. A node lies in the text, its name, its operator and its parts lie in its span,
and an operator stands between its operands: all of it is read off the tree whose nodes the flat form has. The
predeclared functions, which stand in no text, are left out.
-/
import VCLang.Proofs.Arena.Links
import VCLang.Proofs.Span.Tree
namespace VCLang

/-- The operator of an expression, between the operands before it and those behind it. -/
def ExprKind.operator? : ExprKind → Option (List ExprId × Operator × List ExprId)
  | binary op left right => some ([left], op, [right])
  | unary op operand => some ([], op, [operand])
  | _ => none

def Entry.span : Entry → Span
  | expr _ node => node.span
  | stmt _ node => node.span
  | decl _ node => node.span

def Entry.operator? : Entry → Option (List ExprId × Operator × List ExprId)
  | expr _ node => node.kind.operator?
  | stmt _ _ => none
  | decl _ _ => none

variable {text : List Char} {a : Arena} {parent : NodeId}

namespace Arena

/-- Where a node stands. -/
def spanOf (a : Arena) : NodeId → Option Span
  | .program => some a.span
  | .decl id => (a.decl? id).map (·.span)
  | .stmt id => (a.stmt? id).map (·.span)
  | .expr id => (a.expr? id).map (·.span)

/-- The operator of a node, between the operands before it and those behind it. -/
def operatorOf (a : Arena) : NodeId → Option (List ExprId × Operator × List ExprId)
  | .expr id => (a.expr? id).bind (·.kind.operator?)
  | _ => none

/-- A node has a span, which begins before it ends, and all that belongs to the node lies in it. -/
structure NestsAt (a : Arena) (text : List Char) (x : NodeId) (s : Span) : Prop where
  span : a.spanOf x = some s
  placed : s.PlacedIn text
  forward : s.start ≤ s.stop
  children : ∀ y ∈ a.childrenOf x, ∃ t, a.spanOf y = some t ∧ t.Within s
  ident : ∀ i ∈ a.identOf x, i.span.PlacedIn text ∧ i.span.Within s
  operator : ∀ before op behind, a.operatorOf x = some (before, op, behind) →
    op.span.PlacedIn text ∧ op.span.Within s ∧
    (∀ e ∈ before, ∃ t, a.spanOf (.expr e) = some t ∧ t.stop ≤ op.span.start) ∧
    ∀ e ∈ behind, ∃ t, a.spanOf (.expr e) = some t ∧ op.span.stop ≤ t.start

/-- The span of a node nests. -/
def Nests (a : Arena) (text : List Char) (x : NodeId) : Prop := ∃ s, a.NestsAt text x s

theorem Holds.spanOf {x : Entry} (h : a.Holds x) : a.spanOf x.id = some x.span := by
  cases x <;> simp_all [Holds, Arena.spanOf, Entry.id, Entry.span]

theorem Holds.operatorOf {x : Entry} (h : a.Holds x) : a.operatorOf x.id = x.operator? := by
  cases x <;> simp_all [Holds, Arena.operatorOf, Entry.id, Entry.operator?]

/-- The span of a node nests if that of its entry does. -/
theorem Holds.nests {x : Entry} (hx : a.Holds x) (hplaced : x.span.PlacedIn text)
    (hchildren : ∀ y ∈ x.children, ∃ t, a.spanOf y = some t ∧ t.Within x.span)
    (hident : ∀ i ∈ x.ident?, i.span.PlacedIn text ∧ i.span.Within x.span)
    (hoperator : ∀ before op behind, x.operator? = some (before, op, behind) →
      op.span.PlacedIn text ∧ op.span.Within x.span ∧
      (∀ e ∈ before, ∃ t, a.spanOf (.expr e) = some t ∧ t.stop ≤ op.span.start) ∧
      ∀ e ∈ behind, ∃ t, a.spanOf (.expr e) = some t ∧ op.span.stop ≤ t.start) : a.Nests text x.id := by
  refine ⟨x.span, hx.spanOf, hplaced, hplaced.forward, ?_, ?_, ?_⟩
  · rwa [hx.childrenOf]
  · rwa [hx.identOf]
  · rwa [hx.operatorOf]

end Arena

/-! ## Expressions -/

namespace Expr

variable {e : Expr}

/-- The operator of an expression whose spans nest stands between its operands. -/
theorem Nested.operator (h : e.Nested text) {before behind : List ExprId} {op : Operator}
    (hop : e.kind.operator? = some (before, op, behind)) : op.span ∈ e.parts ∧
      (∀ i ∈ before, ∃ c ∈ e.children, c.id = i ∧ c.span.stop ≤ op.span.start) ∧
      ∀ i ∈ behind, ∃ c ∈ e.children, c.id = i ∧ op.span.stop ≤ c.span.start := by
  have hpairwise := h.encloses.pairwise
  cases e with
  | binary info op left right =>
    cases hop
    rw [parts, List.pairwise_cons, List.pairwise_pair] at hpairwise
    obtain ⟨hleft, hright⟩ := hpairwise
    refine ⟨by simp [parts], ?_, ?_⟩
    · rw [List.forall_mem_singleton]
      exact ⟨left, by simp [Expr.children], rfl, hleft _ (by simp)⟩
    · rw [List.forall_mem_singleton]
      exact ⟨right, by simp [Expr.children], rfl, hright⟩
  | unary info op operand =>
    cases hop
    rw [parts, List.pairwise_pair] at hpairwise
    refine ⟨by simp [parts], by simp, ?_⟩
    rw [List.forall_mem_singleton]
    exact ⟨operand, by simp [Expr.children], rfl, hpairwise⟩
  | _ => cases hop

theorem entry_mem (e : Expr) (parent : NodeId) : e.entry parent ∈ e.entries parent := by
  rw [entries_eq]
  exact List.mem_append_right _ (List.mem_singleton.2 rfl)

theorem spanOf_eq (ha : a.Has (e.entries parent)) : a.spanOf (.expr e.id) = some e.span :=
  (ha _ (e.entry_mem parent)).spanOf

theorem Nested.nests (h : e.Nested text) (ha : a.Has (e.entries parent)) :
    ∀ x ∈ e.entries parent, a.Nests text x.id := by
  induction e using Expr.induct_children generalizing parent with
  | h e ih =>
    have hroot := ha _ (e.entry_mem parent)
    have hholds := h.encloses.holds
    rw [entries_eq, Arena.has_append] at ha
    have hchild (c : Expr) (hc : c ∈ e.children) : a.spanOf (.expr c.id) = some c.span := spanOf_eq (ha.1.of_mem hc)
    rw [entries_eq]
    refine List.forall_mem_append.2 ⟨fun x hx => ?_, ?_⟩
    · obtain ⟨c, hc, hx⟩ := List.mem_flatMap.1 hx
      exact ih c hc (h.children c hc) (ha.1.of_mem hc) x hx
    · rw [List.forall_mem_singleton]
      refine hroot.nests h.placed (fun y hy => ?_) (fun i hi => hholds.within _ (ident_mem_parts hi))
        (fun before op behind hop => ?_)
      · obtain ⟨i, hi, rfl⟩ := List.mem_map.1 (show y ∈ e.kind.children.map NodeId.expr from hy)
        rw [kind_children] at hi
        obtain ⟨c, hc, rfl⟩ := List.mem_map.1 hi
        exact ⟨c.span, hchild c hc, (hholds.within _ (span_mem_parts hc)).2⟩
      · obtain ⟨hmem, hbefore, hbehind⟩ := h.operator hop
        refine ⟨(hholds.within _ hmem).1, (hholds.within _ hmem).2, fun i hi => ?_, fun i hi => ?_⟩
        · obtain ⟨c, hc, rfl, hle⟩ := hbefore i hi
          exact ⟨c.span, hchild c hc, hle⟩
        · obtain ⟨c, hc, rfl, hle⟩ := hbehind i hi
          exact ⟨c.span, hchild c hc, hle⟩

end Expr

/-! ## Declarations and statements -/

namespace VarDecl

variable {d : VarDecl}

theorem spanOf_eq (ha : a.Has (d.entries parent)) : a.spanOf (.decl d.id) = some d.span := by
  rw [entries, Arena.has_append] at ha
  exact (ha.2 _ (List.mem_singleton.2 rfl)).spanOf

theorem Nested.nests (h : d.Nested text) (ha : a.Has (d.entries parent)) :
    ∀ x ∈ d.entries parent, a.Nests text x.id := by
  have hholds := h.span.holds
  rw [entries, Expr.entriesOption_eq, Arena.has_append] at ha
  rw [entries, Expr.entriesOption_eq]
  refine List.forall_mem_append.2 ⟨fun x hx => ?_, ?_⟩
  · obtain ⟨e, he, hx⟩ := List.mem_flatMap.1 hx
    exact (h.init e (Option.mem_toList.1 he)).nests (ha.1.of_mem he) x hx
  · rw [List.forall_mem_singleton]
    refine (ha.2 _ (List.mem_singleton.2 rfl)).nests hholds.placed (fun y hy => ?_) ?_ (by simp [Entry.operator?])
    · have hy' : y ∈ d.kind.children := hy
      rw [kind_children] at hy'
      obtain ⟨e, he, rfl⟩ := List.mem_map.1 hy'
      exact ⟨e.span, Expr.spanOf_eq (ha.1.of_mem he), (hholds.within _ (by simp [Option.mem_toList.1 he])).2⟩
    · rintro i ⟨⟩
      exact hholds.within _ (by simp)

end VarDecl

namespace Stmt

variable {s : Stmt}

theorem entry_mem (s : Stmt) (parent : NodeId) : s.entry parent ∈ s.entries parent := by
  rw [entries_eq]
  exact List.mem_append_right _ (List.mem_singleton.2 rfl)

theorem spanOf_eq (ha : a.Has (s.entries parent)) : a.spanOf (.stmt s.id) = some s.span :=
  (ha _ (s.entry_mem parent)).spanOf

theorem Nested.nests (h : s.Nested text) (ha : a.Has (s.entries parent)) :
    ∀ x ∈ s.entries parent, a.Nests text x.id := by
  induction s using Stmt.induct_stmts generalizing parent with
  | h s ih =>
    have hroot := ha _ (s.entry_mem parent)
    have hwithin {t : Span} (ht : t ∈ s.parts) : t.Within s.span := (h.holds.within t ht).2
    rw [entries_eq, Arena.has_append, Arena.has_append, Arena.has_append] at ha
    obtain ⟨⟨⟨hvars, hexprs⟩, hstmts⟩, -⟩ := ha
    rw [entries_eq]
    simp only [List.forall_mem_append, List.forall_mem_singleton]
    refine ⟨⟨⟨fun x hx => ?_, fun x hx => ?_⟩, fun x hx => ?_⟩, ?_⟩
    · obtain ⟨d, hd, hx⟩ := List.mem_flatMap.1 hx
      exact (h.vars d hd).nests (hvars.of_mem hd) x hx
    · obtain ⟨e, he, hx⟩ := List.mem_flatMap.1 hx
      exact (h.exprs e he).nests (hexprs.of_mem he) x hx
    · obtain ⟨c, hc, hx⟩ := List.mem_flatMap.1 hx
      exact ih c hc (h.stmts c hc) (hstmts.of_mem hc) x hx
    · refine hroot.nests h.holds.placed (fun y hy => ?_) nofun nofun
      have hy' : y ∈ s.kind.children := hy
      rw [kind_children, List.mem_append, List.mem_append] at hy'
      rcases hy' with (hy | hy) | hy
      · obtain ⟨d, hd, rfl⟩ := List.mem_map.1 hy
        exact ⟨d.span, VarDecl.spanOf_eq (hvars.of_mem hd), hwithin (by simp [parts, List.mem_map_of_mem hd])⟩
      · obtain ⟨e, he, rfl⟩ := List.mem_map.1 hy
        exact ⟨e.span, Expr.spanOf_eq (hexprs.of_mem he), hwithin (by simp [parts, List.mem_map_of_mem he])⟩
      · obtain ⟨c, hc, rfl⟩ := List.mem_map.1 hy
        exact ⟨c.span, spanOf_eq (hstmts.of_mem hc), hwithin (by simp [parts, List.mem_map_of_mem hc])⟩

end Stmt

/-! ## Functions and programs -/

theorem Function.Nested.nests {f : Function} (h : f.Nested text) (ha : a.Has f.entries) :
    ∀ x ∈ f.entries, a.Nests text x.id := by
  have hholds := h.span.holds
  rw [Function.entries, Arena.has_append, Arena.has_append] at ha
  obtain ⟨⟨hparams, hbody⟩, hroot⟩ := ha
  rw [Function.entries]
  simp only [List.forall_mem_append, List.forall_mem_singleton, List.forall_mem_map]
  refine ⟨⟨fun p hp => ?_, h.body.nests hbody⟩, ?_⟩
  · have hparam := (h.params p hp).holds
    have hchildless : (p.entry (.decl f.id)).children = [] := rfl
    refine (hparams _ (List.mem_map_of_mem hp)).nests hparam.placed (by simp [hchildless]) ?_ nofun
    rintro i ⟨⟩
    exact hparam.within _ (by simp)
  · refine (hroot _ (List.mem_singleton.2 rfl)).nests hholds.placed (fun y hy => ?_) ?_ nofun
    · have hy' : y ∈ (f.params.map fun p => NodeId.decl p.id) ++ [.stmt f.body.id] := by
        simpa [Entry.children, DeclKind.children, Function.comp_def] using hy
      rcases List.mem_append.1 hy' with hy | hy
      · obtain ⟨p, hp, rfl⟩ := List.mem_map.1 hy
        exact ⟨p.span, (hparams _ (List.mem_map_of_mem hp)).spanOf,
          (hholds.within _ (by simp [List.mem_map_of_mem hp])).2⟩
      · cases List.mem_singleton.1 hy
        exact ⟨f.body.info.span, Stmt.spanOf_eq hbody, (hholds.within _ (by simp)).2⟩
    · rintro i ⟨⟩
      exact hholds.within _ (by simp)

theorem TopDecl.Nested.nests {d : TopDecl} (h : d.Nested text) (ha : a.Has d.entries) :
    ∀ x ∈ d.entries, a.Nests text x.id := by
  cases h with
  | func hf => exact hf.nests ha
  | var hd => exact hd.nests ha

theorem TopDecl.spanOf_eq {d : TopDecl} (ha : a.Has d.entries) : a.spanOf (.decl d.id) = some d.span := by
  cases d with
  | func f =>
    rw [TopDecl.entries, Function.entries, Arena.has_append] at ha
    exact (ha.2 _ (List.mem_singleton.2 rfl)).spanOf
  | var d => exact VarDecl.spanOf_eq ha

namespace Program

variable {p : Program}

theorem Complete.has_decls (hp : p.Complete) : p.arena.Has (p.decls.flatMap TopDecl.entries) :=
  fun x hx => hp.has x (List.mem_append_left _ hx)

theorem Nested.nests_program (h : p.Nested text) (hp : p.Complete) : p.arena.Nests text .program := by
  have hholds := h.span.holds
  refine ⟨p.span, rfl, hholds.placed, hholds.placed.forward, fun y hy => ?_, nofun, nofun⟩
  rw [Arena.childrenOf, arena, List.map_map] at hy
  obtain ⟨d, hd, rfl⟩ := List.mem_map.1 hy
  exact ⟨d.span, TopDecl.spanOf_eq (hp.has_decls.of_mem hd), (hholds.within _ (List.mem_map_of_mem hd)).2⟩

/-- The spans of the nodes under a program nest. -/
theorem Nested.nests_entry (h : p.Nested text) (hp : p.Complete) :
    ∀ x ∈ p.decls.flatMap TopDecl.entries, p.arena.Nests text x.id := by
  intro x hx
  obtain ⟨d, hd, hx⟩ := List.mem_flatMap.1 hx
  exact (h.decls d hd).nests (hp.has_decls.of_mem hd) x hx

/-- The spans in the flat form of a program nest, those of the predeclared functions apart. -/
theorem Nested.nests (h : p.Nested text) (hp : p.Complete) {x : NodeId} (hx : p.arena.Contains x)
    (hlibrary : ∀ y ∈ p.predeclared.flatMap Prototype.entries, y.id ≠ x) : p.arena.Nests text x := by
  by_cases hprogram : x = .program
  · subst hprogram
    exact h.nests_program hp
  · obtain ⟨y, hy, rfl⟩ := Arena.exists_holds hx hprogram
    rcases List.mem_append.1 ((hp.holds_iff y).1 hy) with hmem | hmem
    · exact h.nests_entry hp y hmem
    · exact absurd rfl (hlibrary y hmem)

end Program

end VCLang
