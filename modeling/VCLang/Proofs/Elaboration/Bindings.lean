/-
The declarations that names are bound to stay in range: a check binds a name only to what it has found in a
scope, and finds there what the program declares.
-/
import VCLang.Proofs.Arena.Links
import VCLang.Proofs.Elaboration.Renumbering
import VCLang.Proofs.Typing.Expression
namespace VCLang

/-! ## Ranges -/

/-- The names of some nodes are bound, where they are bound, to declarations with numbers below a bound. -/
def Bound (N : Nat) (es : List Entry) : Prop := ∀ x ∈ es, ∀ i ∈ x.ident?, ∀ d ∈ i.decl, d.index < N

@[simp] theorem bound_nil {N : Nat} : Bound N [] := by simp [Bound]

@[simp] theorem bound_append {N : Nat} {es fs : List Entry} : Bound N (es ++ fs) ↔ Bound N es ∧ Bound N fs :=
  List.forall_mem_append

/-- The root of an expression has no part in this but by the name it uses. -/
@[simp] theorem bound_entry {N : Nat} {e : Expr} {parent : NodeId} :
    Bound N [e.entry parent] ↔ ∀ i ∈ e.kind.ident?, ∀ d ∈ i.decl, d.index < N := by
  simp [Bound, Expr.entry, Expr.node, Entry.ident?]

@[simp] theorem bound_stmt {N : Nat} {s : Stmt} {parent : NodeId} : Bound N [s.entry parent] := by
  simp [Bound, Stmt.entry, Entry.ident?]

@[simp] theorem bound_decl {N : Nat} {id : DeclId} {n : DeclNode} :
    Bound N [.decl id n] ↔ ∀ d ∈ n.ident.decl, d.index < N := by
  simp [Bound, Entry.ident?]

/-- The declarations among some nodes have numbers below a bound. -/
def DeclaresBelow (N : Nat) (es : List Entry) : Prop := ∀ i ∈ declIds es, i < N

@[simp] theorem declaresBelow_append {N : Nat} {es fs : List Entry} :
    DeclaresBelow N (es ++ fs) ↔ DeclaresBelow N es ∧ DeclaresBelow N fs := by
  simp [DeclaresBelow, or_imp, forall_and]

@[simp] theorem declaresBelow_decl {N : Nat} {id : DeclId} {n : DeclNode} :
    DeclaresBelow N [.decl id n] ↔ id.index < N := by
  simp [DeclaresBelow, declIds, Entry.decl?]

/-- The declarations that the names in scope stand for have numbers below a bound. -/
def Env.Within (N : Nat) (env : Env) : Prop := ∀ name b, env.retrieve name = some b → b.decl.index < N

theorem Env.Within.insert {N : Nat} {env : Env} {name : String} {b : Binding} (h : env.Within N)
    (hb : b.decl.index < N) : Env.Within N (env.insert name b) := by
  intro other c hc
  rcases Scopes.of_retrieve_insert hc with ⟨-, rfl⟩ | hc
  · exact hb
  · exact h other c hc

theorem Env.Within.openScope {N : Nat} {env : Env} (h : env.Within N) : Env.Within N env.openScope := by
  intro name b hb
  rw [Scopes.retrieve_openScope] at hb
  exact h name b hb

namespace Typing

variable {N : Nat} {env env' : Env} {n n' : Nat} {e e' : Expr} {errors : List Error}

/-! ## Expressions -/

theorem Uses.inRange {ident ident' : Ident} {span : Span} {t : Ty} (h : Uses env ident span ident' t errors)
    (henv : env.Within N) (hident : ∀ d ∈ ident.decl, d.index < N) : ∀ d ∈ ident'.decl, d.index < N := by
  cases h with
  | unbound => exact hident
  | bound hb _ =>
    intro d hd
    cases hd
    exact henv _ _ hb

theorem bound_parent {parent : NodeId} (h : Bound N (e.entries parent)) (parent' : NodeId) :
    Bound N (e.entries parent') := by
  cases e <;> simpa [Expr.entries] using h

theorem Converted.bound {parent : NodeId} (h : Converted n e e' n') (he : Bound N (e.entries parent))
    (parent' : NodeId) : Bound N (e'.entries parent') := by
  cases h with
  | keep => exact bound_parent he parent'
  | widen => simpa [Expr.entries, Expr.kind, ExprKind.ident?] using bound_parent he _

/-- The check of an expression keeps the names in it bound in range. -/
def KeepsBound (N : Nat) (e : Expr) : Prop :=
  ∀ ⦃env n e' n' errors parent⦄, Elaborates env n e e' n' errors → env.Within N → Bound N (e.entries parent) →
    ∀ parent', Bound N (e'.entries parent')

theorem ElaboratesAll.bound {es es' : List Expr} {parent : NodeId} (h : ElaboratesAll env n es es' n' errors)
    (hes : ∀ e ∈ es, KeepsBound N e) (henv : env.Within N) (hbound : Bound N (Expr.entriesAll parent es)) :
    Bound N (Expr.entriesAll parent es') := by
  induction es generalizing n es' errors with
  | nil =>
    cases h
    exact hbound
  | cons e es ih =>
    rw [Expr.entriesAll, bound_append] at hbound
    cases h with
    | cons he hc _ hrest =>
      rw [Expr.entriesAll, bound_append]
      have hfirst := hc.bound (hes e (by simp) he henv hbound.1 parent) parent
      exact ⟨hfirst, ih hrest (fun e he => hes e (by simp [he])) hbound.2⟩

/-- The names in an expression stay bound in range if those in the expressions under it do. -/
theorem Elaborates.bound_of_children {parent : NodeId} (h : Elaborates env n e e' n' errors)
    (hkeeps : ∀ c ∈ e.children, KeepsBound N c) (henv : env.Within N) (hbound : Bound N (e.entries parent))
    (parent' : NodeId) : Bound N (e'.entries parent') := by
  let p : NodeId := .expr e.id
  cases h with
  | literal => simp [Expr.entries, Expr.kind, ExprKind.ident?]
  | var huse =>
    have hident := huse.inRange henv (by simpa [Expr.entries, Expr.kind, ExprKind.ident?] using hbound)
    simpa [Expr.entries, Expr.kind, ExprKind.ident?] using hident
  | arrayAccess hi huse =>
    simp only [Expr.entries, bound_append] at hbound
    have hindex := hkeeps _ (by simp [Expr.children]) hi henv hbound.1 p
    have hident := huse.inRange henv (by simpa [Expr.kind, ExprKind.ident?] using hbound.2)
    simpa [Expr.entries, Expr.kind, ExprKind.ident?] using ⟨hindex, hident⟩
  | mainCall _ hargs =>
    simp only [Expr.entries, bound_append] at hbound
    have hargs := hargs.bound hkeeps henv hbound.1
    simpa [Expr.entries, Expr.kind, ExprKind.ident?] using
      ⟨hargs, by simpa [Expr.kind, ExprKind.ident?] using hbound.2⟩
  | call _ huse hargs _ =>
    simp only [Expr.entries, bound_append] at hbound
    have hident := huse.inRange henv (by simpa [Expr.kind, ExprKind.ident?] using hbound.2)
    simpa [Expr.entries, Expr.kind, ExprKind.ident?] using ⟨hargs.bound hkeeps henv hbound.1, hident⟩
  | unary ho _ | unaryError ho _ | intToFloat ho =>
    simp only [Expr.entries, bound_append] at hbound
    simpa [Expr.entries, Expr.kind, ExprKind.ident?] using hkeeps _ (by simp [Expr.children]) ho henv hbound.1 _
  | binary hl hr _ hu hwl hwr =>
    subst hu
    simp only [Expr.entries, bound_append] at hbound
    have hleft := hkeeps _ (by simp [Expr.children]) hl henv hbound.1.1 p
    have hright := hkeeps _ (by simp [Expr.children]) hr henv hbound.1.2 p
    have hleft := (hwl.converted int_of_unified.1).bound hleft p
    have hright := (hwr.converted int_of_unified.2).bound hright p
    simpa [Expr.entries, Expr.kind, ExprKind.ident?] using ⟨hleft, hright⟩
  | binaryError hl hr _ =>
    simp only [Expr.entries, bound_append] at hbound
    have hleft := hkeeps _ (by simp [Expr.children]) hl henv hbound.1.1 p
    have hright := hkeeps _ (by simp [Expr.children]) hr henv hbound.1.2 p
    simpa [Expr.entries, Expr.kind, ExprKind.ident?] using ⟨hleft, hright⟩
  | assign ht hv hruling hw =>
    simp only [Expr.entries, bound_append] at hbound
    have htarget := hkeeps _ (by simp [Expr.children]) ht henv hbound.1.1 p
    have hvalue := hkeeps _ (by simp [Expr.children]) hv henv hbound.1.2 p
    have hvalue := (hw.converted (assignRuling_accept hruling).1).bound hvalue p
    simpa [Expr.entries, Expr.kind, ExprKind.ident?] using ⟨htarget, hvalue⟩
  | assignError _ ht hv _ =>
    simp only [Expr.entries, bound_append] at hbound
    have htarget := hkeeps _ (by simp [Expr.children]) ht henv hbound.1.1 p
    have hvalue := hkeeps _ (by simp [Expr.children]) hv henv hbound.1.2 p
    simpa [Expr.entries, Expr.kind, ExprKind.ident?] using ⟨htarget, hvalue⟩
  | initList helements =>
    simp only [Expr.entries, bound_append] at hbound
    rw [Expr.entries, bound_append, bound_entry]
    exact ⟨helements.bound hkeeps henv hbound.1, by simp [Expr.kind, ExprKind.ident?]⟩

theorem keepsBound (N : Nat) (e : Expr) : KeepsBound N e := by
  induction e using Expr.induct_children with
  | h e ih => exact fun _ _ _ _ _ _ h => h.bound_of_children ih

theorem Elaborates.bound {parent : NodeId} (h : Elaborates env n e e' n' errors) (henv : env.Within N)
    (hbound : Bound N (e.entries parent)) (parent' : NodeId) : Bound N (e'.entries parent') :=
  keepsBound N e h henv hbound parent'

theorem ElaboratesOption.bound {o o' : Option Expr} {parent : NodeId} (h : ElaboratesOption env n o o' n' errors)
    (henv : env.Within N) (hbound : Bound N (Expr.entriesOption parent o)) (parent' : NodeId) :
    Bound N (Expr.entriesOption parent' o') := by
  cases h with
  | none => exact bound_nil
  | some he hc _ => exact hc.bound (he.bound henv hbound parent') parent'

/-! ## Declarations -/

theorem ElaboratesInit.bound {d d' : VarDecl} {parent : NodeId} (h : ElaboratesInit env n d d' n' errors)
    (henv : env.Within N) (hbound : Bound N (d.entries parent)) (parent' : NodeId) :
    Bound N (d'.entries parent') := by
  unfold VarDecl.entries at hbound ⊢
  rw [bound_append, bound_decl] at hbound ⊢
  cases h with
  | none => exact hbound
  | value hinit _ he hc _ =>
    rw [hinit] at hbound
    exact ⟨hc.bound (he.bound henv hbound.1 (.decl d.id)) _, hbound.2⟩
  | list _ hinit _ helements _ =>
    rw [hinit] at hbound
    simp only [Expr.entriesOption, Expr.entries, bound_append] at hbound ⊢
    have hall := helements.bound (fun e _ => keepsBound N e) henv hbound.1.1
    exact ⟨⟨hall, by simp [Expr.kind, ExprKind.ident?]⟩, hbound.2⟩

theorem ElaboratesVars.bound {ds ds' : List VarDecl} {parent : NodeId}
    (h : ElaboratesVars env n ds ds' env' n' errors) (henv : env.Within N)
    (hds : DeclaresBelow N (ds.flatMap (VarDecl.entries parent)))
    (hbound : Bound N (ds.flatMap (VarDecl.entries parent))) (parent' : NodeId) :
    env'.Within N ∧ Bound N (ds'.flatMap (VarDecl.entries parent')) := by
  induction h with
  | nil => exact ⟨henv, bound_nil⟩
  | @cons env env' d d' ds ds' n n₁ n' own more hinit _ ih =>
    simp only [List.flatMap_cons, bound_append, declaresBelow_append] at hds hbound ⊢
    have hid : d.id.index < N := by
      have hd := hds.1
      rw [VarDecl.entries, declaresBelow_append, declaresBelow_decl] at hd
      exact hd.2
    have hid' : d'.id.index < N := by rwa [hinit.id]
    obtain ⟨henv', hrest⟩ := ih (henv.insert hid') hds.2 hbound.2
    exact ⟨henv', hinit.bound (henv.insert hid) hbound.1 parent', hrest⟩

/-! ## Statements -/

theorem ElaboratesForCondition.bound {span : Span} {cond : Option Expr} {cond' : Expr} {parent : NodeId}
    (h : ElaboratesForCondition env n span cond cond' n' errors) (henv : env.Within N)
    (hbound : Bound N (Expr.entriesOption parent cond)) (parent' : NodeId) : Bound N (cond'.entries parent') := by
  cases h with
  | omitted => simp [Expr.entries, Expr.kind, ExprKind.ident?]
  | given h _ => exact h.bound henv hbound parent'

/-- The check of a statement keeps the names in it bound in range. -/
def KeepsStmtBound (N : Nat) (s : Stmt) : Prop :=
  ∀ ⦃env n s' n' errors parent⦄, ElaboratesStmt env n s s' n' errors → env.Within N →
    DeclaresBelow N (s.entries parent) → Bound N (s.entries parent) → ∀ parent', Bound N (s'.entries parent')

theorem ElaboratesStmts.bound {ss ss' : List Stmt} {parent : NodeId} (h : ElaboratesStmts env n ss ss' n' errors)
    (hss : ∀ s ∈ ss, KeepsStmtBound N s) (henv : env.Within N) (hdecls : DeclaresBelow N (Stmt.entriesAll parent ss))
    (hbound : Bound N (Stmt.entriesAll parent ss)) : Bound N (Stmt.entriesAll parent ss') := by
  induction ss generalizing n ss' errors with
  | nil =>
    cases h
    exact hbound
  | cons s ss ih =>
    rw [Stmt.entriesAll] at hdecls hbound
    rw [declaresBelow_append] at hdecls
    rw [bound_append] at hbound
    cases h with
    | cons hs _ hrest =>
      rw [Stmt.entriesAll, bound_append]
      exact ⟨hss s (by simp) hs henv hdecls.1 hbound.1 parent,
        ih hrest (fun s hs => hss s (by simp [hs])) hdecls.2 hbound.2⟩

/-- The names in a statement stay bound in range if those in the statements under it do. -/
theorem ElaboratesStmt.bound_of_stmts {s s' : Stmt} {parent : NodeId} (h : ElaboratesStmt env n s s' n' errors)
    (hkeeps : ∀ t ∈ s.stmts, KeepsStmtBound N t) (henv : env.Within N) (hdecls : DeclaresBelow N (s.entries parent))
    (hbound : Bound N (s.entries parent)) (parent' : NodeId) : Bound N (s'.entries parent') := by
  let p : NodeId := .stmt s.id
  cases h with
  | compound hvars hstmts =>
    simp only [Stmt.entries, bound_append, declaresBelow_append] at hdecls hbound
    obtain ⟨henv₁, hvars⟩ := hvars.bound henv.openScope hdecls.1.1 hbound.1.1 p
    have hstmts := hstmts.bound hkeeps henv₁ hdecls.1.2 hbound.1.2
    simpa [Stmt.entries] using ⟨hvars, hstmts⟩
  | ifThen hc _ hthen =>
    simp only [Stmt.entries, bound_append, declaresBelow_append] at hdecls hbound
    have hcond := hc.bound henv hbound.1.1 p
    have hthen := hkeeps _ (by simp [Stmt.stmts]) hthen henv hdecls.1.2 hbound.1.2 p
    simpa [Stmt.entries] using ⟨hcond, hthen⟩
  | ifElse hc _ hthen helse =>
    simp only [Stmt.entries, bound_append, declaresBelow_append] at hdecls hbound
    have hcond := hc.bound henv hbound.1.1.1 p
    have hthen := hkeeps _ (by simp [Stmt.stmts]) hthen henv hdecls.1.1.2 hbound.1.1.2 p
    have helse := hkeeps _ (by simp [Stmt.stmts]) helse henv hdecls.1.2 hbound.1.2 p
    simpa [Stmt.entries] using ⟨hcond, hthen, helse⟩
  | whileStmt hc _ hbody =>
    simp only [Stmt.entries, bound_append, declaresBelow_append] at hdecls hbound
    have hcond := hc.bound henv hbound.1.1 p
    have hbody := hkeeps _ (by simp [Stmt.stmts]) hbody henv hdecls.1.2 hbound.1.2 p
    simpa [Stmt.entries] using ⟨hcond, hbody⟩
  | forStmt hi hc hu hbody =>
    simp only [Stmt.entries, bound_append, declaresBelow_append] at hdecls hbound
    have hinit := hi.bound henv hbound.1.1.1.1 p
    have hcond := hc.bound henv hbound.1.1.1.2 p
    have hupdate := hu.bound henv hbound.1.1.2 p
    have hbody := hkeeps _ (by simp [Stmt.stmts]) hbody henv hdecls.1.2 hbound.1.2 p
    simpa [Stmt.entries, Expr.entriesOption] using ⟨hinit, hcond, hupdate, hbody⟩
  | breakStmt | continueStmt | emptyStmt => simp [Stmt.entries]
  | returnStmt hv =>
    simp only [Stmt.entries, bound_append] at hbound
    simpa [Stmt.entries] using hv.bound henv hbound.1 _
  | exprStmt he =>
    simp only [Stmt.entries, bound_append] at hbound
    simpa [Stmt.entries] using he.bound henv hbound.1 _

theorem keepsStmtBound (N : Nat) (s : Stmt) : KeepsStmtBound N s := by
  induction s using Stmt.induct_stmts with
  | h s ih => exact fun _ _ _ _ _ _ h => h.bound_of_stmts ih

/-! ## Programs -/

theorem ElaboratesParams.within {ps : List Param} {parent : NodeId} (h : ElaboratesParams env ps env' errors)
    (henv : env.Within N) (hps : DeclaresBelow N (ps.map (Param.entry parent))) : env'.Within N := by
  induction h with
  | nil => exact henv
  | @cons env env' p ps own more _ _ ih =>
    rw [DeclaresBelow, declIds_params] at hps ih
    rw [List.map_cons, List.forall_mem_cons] at hps
    exact ih (henv.insert hps.1) hps.2

theorem ElaboratesFunction.bound {f f' : Function} (h : ElaboratesFunction env n f f' n' errors)
    (henv : env.Within N) (hf : DeclaresBelow N f.entries) (hbound : Bound N f.entries) : Bound N f'.entries := by
  simp only [Function.entries, Block.toStmt, Stmt.entries, bound_append, declaresBelow_append, declaresBelow_decl]
    at hf hbound
  cases h with
  | mk hparams hdecls hstmts _ =>
    have henv₁ := hparams.within (henv.insert hf.2).openScope hf.1.1
    obtain ⟨henv₂, hdecls⟩ := hdecls.bound henv₁ hf.1.2.1.1 hbound.1.2.1.1 (.stmt f.body.info.id)
    have hstmts := hstmts.bound (fun s _ => keepsStmtBound N s) henv₂ hf.1.2.1.2 hbound.1.2.1.2
    simp only [Function.entries, Block.toStmt, Stmt.entries, bound_append]
    exact ⟨⟨hbound.1.1, ⟨hdecls, hstmts⟩, bound_stmt⟩, by simpa using hbound.2⟩

theorem ElaboratesTops.bound {ds ds' : List TopDecl} (h : ElaboratesTops env n ds ds' n' errors)
    (henv : env.Within N) (hds : DeclaresBelow N (ds.flatMap TopDecl.entries))
    (hbound : Bound N (ds.flatMap TopDecl.entries)) : Bound N (ds'.flatMap TopDecl.entries) := by
  induction h with
  | nil => exact bound_nil
  | @func env n n₁ n' f f' ds ds' errors more hf _ ih =>
    simp only [List.flatMap_cons, bound_append, declaresBelow_append] at hds hbound ⊢
    have hid : f.id.index < N := by
      have hd := hds.1
      rw [TopDecl.entries, Function.entries, declaresBelow_append, declaresBelow_decl] at hd
      exact hd.2
    exact ⟨hf.bound henv hds.1 hbound.1, ih (henv.insert hid) hds.2 hbound.2⟩
  | @var env n n₁ n' d d' ds ds' own more hinit _ ih =>
    simp only [List.flatMap_cons, bound_append, declaresBelow_append] at hds hbound ⊢
    have hid : d.id.index < N := by
      have hd := hds.1
      rw [TopDecl.entries, VarDecl.entries, declaresBelow_append, declaresBelow_decl] at hd
      exact hd.2
    have hid' : d'.id.index < N := by rwa [hinit.id]
    exact ⟨hinit.bound (henv.insert hid) hbound.1 .program, ih (henv.insert hid') hds.2 hbound.2⟩

theorem within_bindAll {fs : List Prototype} (henv : env.Within N)
    (hfs : DeclaresBelow N (fs.flatMap Prototype.entries)) : Env.Within N (Library.bindAll env fs) := by
  induction fs generalizing env with
  | nil => exact henv
  | cons f fs ih =>
    rw [List.flatMap_cons, declaresBelow_append, Prototype.entries, declaresBelow_append, declaresBelow_decl] at hfs
    exact ih (henv.insert hfs.1.2) hfs.2

end Typing

end VCLang
