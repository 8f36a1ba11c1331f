/-
What the check does to the numbers of nodes, whatever it reports: the nodes that were there keep theirs, and
those that are put in, conversions and omitted conditions, get the numbers that follow.
-/
import VCLang.Proofs.Arena.Placed
import VCLang.Proofs.Elaboration.Statement
import VCLang.Proofs.Tree.Parts
namespace VCLang.Typing

variable {env env' : Env} {n n' : Nat} {e e' : Expr} {errors : List Error}

/-! ## Expressions -/

theorem Elaborates.id (h : Elaborates env n e e' n' errors) : e'.id = e.id := by
  cases h <;> rfl

theorem renumbered_entry (parent parent' : NodeId) (h : e'.id = e.id) (n : Nat) :
    Renumbered [e.entry parent] [e'.entry parent'] n n := by
  refine .of_eq n ?_ rfl rfl
  simp [exprIds, Expr.entry, Entry.expr?, h]

/-- What a node is part of has no part in its number. -/
theorem renumbered_parent (e : Expr) (parent parent' : NodeId) (n : Nat) :
    Renumbered (e.entries parent) (e.entries parent') n n := by
  have hentry := @renumbered_entry e e parent parent' rfl n
  cases e <;> rw [Expr.entries, Expr.entries] <;> first
    | exact hentry
    | exact .append (.of_eq n rfl rfl rfl) hentry

/-- A conversion is one node more. -/
theorem Converted.renumbered (h : Converted n e e' n') (parent parent' : NodeId) :
    Renumbered (e.entries parent) (e'.entries parent') n n' := by
  cases h with
  | keep => exact renumbered_parent e parent parent' n
  | widen =>
    rw [Expr.entries]
    exact (renumbered_parent e parent _ n).trans (.add _ n _)

/-- The check of an expression keeps the numbers of its nodes. -/
def KeepsNumbers (e : Expr) : Prop :=
  ∀ ⦃env n e' n' errors⦄, Elaborates env n e e' n' errors → ∀ parent parent',
    Renumbered (e.entries parent) (e'.entries parent') n n'

theorem ElaboratesAll.renumbered {es es' : List Expr} (h : ElaboratesAll env n es es' n' errors)
    (hes : ∀ e ∈ es, KeepsNumbers e) (parent : NodeId) :
    Renumbered (Expr.entriesAll parent es) (Expr.entriesAll parent es') n n' := by
  induction es generalizing n es' errors with
  | nil =>
    cases h
    exact .of_eq _ rfl rfl rfl
  | cons e es ih =>
    cases h with
    | cons he hc _ hrest =>
      have hfirst := (hes e (by simp) he parent parent).trans (hc.renumbered parent parent)
      exact hfirst.append (ih hrest fun e he => hes e (by simp [he]))

/-- An expression keeps its numbers if those under it do. -/
theorem Elaborates.renumbered_of_children (h : Elaborates env n e e' n' errors)
    (hkeeps : ∀ c ∈ e.children, KeepsNumbers c) (parent parent' : NodeId) :
    Renumbered (e.entries parent) (e'.entries parent') n n' := by
  have hroot := renumbered_entry parent parent' h.id n'
  let p : NodeId := .expr e.id
  cases h with
  | literal | var => exact hroot
  | arrayAccess hi _ =>
    rw [Expr.entries, Expr.entries]
    exact (hkeeps _ (by simp [Expr.children]) hi _ _).append hroot
  | mainCall _ hargs | call _ _ hargs _ =>
    rw [Expr.entries, Expr.entries]
    exact (hargs.renumbered hkeeps _).append hroot
  | unary ho _ | unaryError ho _ =>
    rw [Expr.entries, Expr.entries]
    exact (hkeeps _ (by simp [Expr.children]) ho _ _).append hroot
  | binary hl hr _ hu hwl hwr =>
    subst hu
    -- both operands are checked before either is converted
    have hleft := hkeeps _ (by simp [Expr.children]) hl p p
    have hright := hkeeps _ (by simp [Expr.children]) hr p p
    have hwidened := ((hwl.converted int_of_unified.1).renumbered p p).append
      ((hwr.converted int_of_unified.2).renumbered p p)
    rw [Expr.entries, Expr.entries]
    exact ((hleft.append hright).trans hwidened).append hroot
  | binaryError hl hr _ =>
    have hleft := hkeeps _ (by simp [Expr.children]) hl p p
    have hright := hkeeps _ (by simp [Expr.children]) hr p p
    rw [Expr.entries, Expr.entries]
    exact (hleft.append hright).append hroot
  | assign ht hv hruling hw =>
    have htarget := hkeeps _ (by simp [Expr.children]) ht p p
    have hvalue := hkeeps _ (by simp [Expr.children]) hv p p
    have hc := hw.converted (assignRuling_accept hruling).1
    rw [Expr.entries, Expr.entries]
    exact (htarget.append (hvalue.trans (hc.renumbered p p))).append hroot
  | assignError _ ht hv _ =>
    have htarget := hkeeps _ (by simp [Expr.children]) ht p p
    have hvalue := hkeeps _ (by simp [Expr.children]) hv p p
    rw [Expr.entries, Expr.entries]
    exact (htarget.append hvalue).append hroot
  | initList helements =>
    rw [Expr.entries, Expr.entries]
    exact (helements.renumbered hkeeps _).append hroot
  | intToFloat ho =>
    rw [Expr.entries, Expr.entries]
    exact (hkeeps _ (by simp [Expr.children]) ho _ _).append hroot

theorem keepsNumbers (e : Expr) : KeepsNumbers e := by
  induction e using Expr.induct_children with
  | h e ih => exact fun _ _ _ _ _ h => h.renumbered_of_children ih

theorem Elaborates.renumbered (h : Elaborates env n e e' n' errors) (parent parent' : NodeId) :
    Renumbered (e.entries parent) (e'.entries parent') n n' := keepsNumbers e h parent parent'

theorem ElaboratesOption.renumbered {o o' : Option Expr} (h : ElaboratesOption env n o o' n' errors)
    (parent parent' : NodeId) : Renumbered (Expr.entriesOption parent o) (Expr.entriesOption parent' o') n n' := by
  cases h with
  | none => exact .of_eq n rfl rfl rfl
  | some he hc _ => exact (he.renumbered parent parent').trans (hc.renumbered parent' parent')

/-! ## Declarations -/

theorem ElaboratesInit.id {d d' : VarDecl} (h : ElaboratesInit env n d d' n' errors) : d'.id = d.id := by
  cases h <;> rfl

theorem ElaboratesInit.renumbered {d d' : VarDecl} (h : ElaboratesInit env n d d' n' errors)
    (parent parent' : NodeId) : Renumbered (d.entries parent) (d'.entries parent') n n' := by
  have hid (node node' : DeclNode) (m : Nat) : Renumbered [.decl d.id node] [.decl d.id node'] m m :=
    .of_eq m rfl rfl rfl
  cases h with
  | none => exact .append (.of_eq n rfl rfl rfl) (hid _ _ n)
  | value hinit _ he hc _ =>
    unfold VarDecl.entries
    rw [hinit]
    exact .append ((he.renumbered _ (.decl d.id)).trans (hc.renumbered _ _)) (hid _ _ n')
  | @list element size info es es' t _ _ _ _ hinit _ helements _ =>
    unfold VarDecl.entries
    rw [hinit]
    refine .append ?_ (hid _ _ n')
    rw [Expr.entriesOption, Expr.entriesOption, Expr.entries, Expr.entries]
    have hlist : (Expr.initList (info.typed t) es').id = (Expr.initList info es).id := rfl
    exact (helements.renumbered (fun e _ => keepsNumbers e) _).append (renumbered_entry _ _ hlist n')

theorem ElaboratesVars.ids {ds ds' : List VarDecl} (h : ElaboratesVars env n ds ds' env' n' errors) :
    ds'.map VarDecl.id = ds.map VarDecl.id := by
  induction h with
  | nil => rfl
  | cons hinit _ ih => rw [List.map_cons, List.map_cons, hinit.id, ih]

theorem ElaboratesVars.renumbered {ds ds' : List VarDecl} (h : ElaboratesVars env n ds ds' env' n' errors)
    (parent parent' : NodeId) :
    Renumbered (ds.flatMap (VarDecl.entries parent)) (ds'.flatMap (VarDecl.entries parent')) n n' := by
  induction h with
  | nil => exact .of_eq _ rfl rfl rfl
  | cons hinit _ ih => exact (hinit.renumbered parent parent').append ih

/-! ## Statements -/

theorem renumbered_stmt {s s' : Stmt} (parent parent' : NodeId) (h : s'.id = s.id) (n : Nat) :
    Renumbered [s.entry parent] [s'.entry parent'] n n := by
  refine .of_eq n rfl ?_ rfl
  simp [stmtIds, Stmt.entry, Entry.stmt?, h]

theorem ElaboratesForCondition.renumbered {span : Span} {cond : Option Expr} {cond' : Expr}
    (h : ElaboratesForCondition env n span cond cond' n' errors) (parent parent' : NodeId) :
    Renumbered (Expr.entriesOption parent cond) (cond'.entries parent') n n' := by
  cases h with
  | omitted => exact .add [] n _
  | given h _ => exact h.renumbered parent parent'

theorem ElaboratesStmt.id {s s' : Stmt} (h : ElaboratesStmt env n s s' n' errors) : s'.id = s.id := by
  cases h <;> rfl

theorem ElaboratesStmts.ids {ss ss' : List Stmt} (h : ElaboratesStmts env n ss ss' n' errors) :
    ss'.map Stmt.id = ss.map Stmt.id := by
  induction ss generalizing n ss' errors with
  | nil =>
    cases h
    rfl
  | cons s ss ih =>
    cases h with
    | cons hs _ hrest => rw [List.map_cons, List.map_cons, hs.id, ih hrest]

/-- The check of a statement keeps the numbers of its nodes. -/
def KeepsStmtNumbers (s : Stmt) : Prop :=
  ∀ ⦃env n s' n' errors⦄, ElaboratesStmt env n s s' n' errors → ∀ parent parent',
    Renumbered (s.entries parent) (s'.entries parent') n n'

theorem ElaboratesStmts.renumbered {ss ss' : List Stmt} (h : ElaboratesStmts env n ss ss' n' errors)
    (hss : ∀ s ∈ ss, KeepsStmtNumbers s) (parent : NodeId) :
    Renumbered (Stmt.entriesAll parent ss) (Stmt.entriesAll parent ss') n n' := by
  induction ss generalizing n ss' errors with
  | nil =>
    cases h
    exact .of_eq _ rfl rfl rfl
  | cons s ss ih =>
    cases h with
    | cons hs _ hrest => exact (hss s (by simp) hs parent parent).append (ih hrest fun s hs => hss s (by simp [hs]))

/-- A statement keeps its numbers if those under it do. -/
theorem ElaboratesStmt.renumbered_of_stmts {s s' : Stmt} (h : ElaboratesStmt env n s s' n' errors)
    (hkeeps : ∀ t ∈ s.stmts, KeepsStmtNumbers t) (parent parent' : NodeId) :
    Renumbered (s.entries parent) (s'.entries parent') n n' := by
  have hroot := renumbered_stmt parent parent' h.id n'
  cases h with
  | compound hdecls hstmts =>
    rw [Stmt.entries, Stmt.entries]
    exact ((hdecls.renumbered _ _).append (hstmts.renumbered hkeeps _)).append hroot
  | ifThen hc _ hthen =>
    have hthen := hkeeps _ (by simp [Stmt.stmts]) hthen
    rw [Stmt.entries, Stmt.entries]
    exact ((hc.renumbered _ _).append (hthen _ _)).append hroot
  | ifElse hc _ hthen helse =>
    have hthen := hkeeps _ (by simp [Stmt.stmts]) hthen
    have helse := hkeeps _ (by simp [Stmt.stmts]) helse
    rw [Stmt.entries, Stmt.entries]
    exact (((hc.renumbered _ _).append (hthen _ _)).append (helse _ _)).append hroot
  | whileStmt hc _ hbody =>
    have hbody := hkeeps _ (by simp [Stmt.stmts]) hbody
    rw [Stmt.entries, Stmt.entries]
    exact ((hc.renumbered _ _).append (hbody _ _)).append hroot
  | forStmt hi hc hu hbody =>
    -- a condition that is put in takes its number between those of the other parts
    have hbody := hkeeps _ (by simp [Stmt.stmts]) hbody
    rw [Stmt.entries, Stmt.entries]
    exact ((((hi.renumbered _ _).append (hc.renumbered _ _)).append (hu.renumbered _ _)).append
      (hbody _ _)).append hroot
  | breakStmt | continueStmt | emptyStmt => exact hroot
  | returnStmt hv =>
    rw [Stmt.entries, Stmt.entries]
    exact (hv.renumbered _ _).append hroot
  | exprStmt he =>
    rw [Stmt.entries, Stmt.entries]
    exact (he.renumbered _ _).append hroot

theorem keepsStmtNumbers (s : Stmt) : KeepsStmtNumbers s := by
  induction s using Stmt.induct_stmts with
  | h s ih => exact fun _ _ _ _ _ h => h.renumbered_of_stmts ih

/-! ## Programs -/

theorem ElaboratesFunction.renumbered {f f' : Function} (h : ElaboratesFunction env n f f' n' errors) :
    Renumbered f.entries f'.entries n n' := by
  cases h with
  | mk _ hdecls hstmts _ =>
    have hbody := (hdecls.renumbered (.stmt f.body.info.id) (.stmt f.body.info.id)).append
      (hstmts.renumbered (fun s _ => keepsStmtNumbers s) (.stmt f.body.info.id))
    unfold Function.entries Block.toStmt
    rw [Stmt.entries, Stmt.entries]
    -- neither the parameters nor the roots of the body and of the function get another number
    exact Renumbered.append (.append (.of_eq n rfl rfl rfl) (hbody.append (.of_eq n' rfl rfl rfl)))
      (.of_eq n' rfl rfl rfl)

theorem ElaboratesTops.ids {ds ds' : List TopDecl} (h : ElaboratesTops env n ds ds' n' errors) :
    ds'.map TopDecl.id = ds.map TopDecl.id := by
  induction h with
  | nil => rfl
  | func hf _ ih =>
    rw [List.map_cons, List.map_cons, ih]
    cases hf
    rfl
  | var hinit _ ih =>
    rw [List.map_cons, List.map_cons, ih, TopDecl.id, TopDecl.id, hinit.id]

theorem ElaboratesTops.renumbered {ds ds' : List TopDecl} (h : ElaboratesTops env n ds ds' n' errors) :
    Renumbered (ds.flatMap TopDecl.entries) (ds'.flatMap TopDecl.entries) n n' := by
  induction h with
  | nil => exact .of_eq _ rfl rfl rfl
  | func hf _ ih => exact hf.renumbered.append ih
  | var hd _ ih => exact (hd.renumbered .program .program).append ih

end VCLang.Typing

namespace VCLang

open Typing

/-! ## Checked programs -/

/-- The predeclared functions and their parameters are numbered one after another. -/
theorem declIds_number (first : Nat) (es : List Library.Entry) :
    ∃ n, declIds ((Library.number first es).flatMap Prototype.entries) = List.range' first n := by
  induction es generalizing first with
  | nil => exact ⟨0, rfl⟩
  | cons e es ih =>
    let last := first + e.params.length
    obtain ⟨n, hn⟩ := ih (last + 1)
    have hparams : declIds ((Library.params first e.params).map (Param.entry (.decl ⟨last⟩))) =
        List.range' first e.params.length := by
      rw [declIds_params]
      exact List.ext_getElem (by simp [Library.params]) (by simp [Library.params])
    refine ⟨e.params.length + (1 + n), ?_⟩
    rw [Library.number, List.flatMap_cons, declIds_append, hn, Prototype.entries, declIds_append, hparams,
      ← List.range'_append_1, ← List.range'_append_1, List.append_assoc]
    rfl

/-- Only declarations are nodes of predeclared functions. -/
theorem ids_prototypes (fs : List Prototype) :
    exprIds (fs.flatMap Prototype.entries) = [] ∧ stmtIds (fs.flatMap Prototype.entries) = [] := by
  have hparams (parent : NodeId) (ps : List Param) :
      exprIds (ps.map (Param.entry parent)) = [] ∧ stmtIds (ps.map (Param.entry parent)) = [] := by
    induction ps with
    | nil => exact ⟨rfl, rfl⟩
    | cons p ps ih => exact ih
  induction fs with
  | nil => exact ⟨rfl, rfl⟩
  | cons f fs ih =>
    obtain ⟨hexprs, hstmts⟩ := hparams (.decl f.id) f.params
    rw [List.flatMap_cons, exprIds_append, stmtIds_append, ih.1, ih.2, Prototype.entries, exprIds_append,
      stmtIds_append, hexprs, hstmts]
    exact ⟨rfl, rfl⟩

/-- The nodes of predeclared functions are declarations. -/
theorem eq_decl_of_mem_prototypes {fs : List Prototype} {x : Entry} (h : x ∈ fs.flatMap Prototype.entries) :
    ∃ id n, x = .decl id n := by
  obtain ⟨f, -, hx⟩ := List.mem_flatMap.1 h
  rcases List.mem_append.1 hx with hx | hx
  · obtain ⟨q, -, rfl⟩ := List.mem_map.1 hx
    exact ⟨_, _, rfl⟩
  · exact ⟨_, _, List.mem_singleton.1 hx⟩

theorem not_mem_prototypes {fs : List Prototype} {id : ExprId} {n : ExprNode} :
    .expr id n ∉ fs.flatMap Prototype.entries := by
  intro h
  have hmem := mem_exprIds h
  rw [(ids_prototypes fs).1] at hmem
  cases hmem

/-- The nodes of a checked program, with the predeclared functions that are added to it. -/
theorem Program.entries_checked (p : Program) (ds : List TopDecl) :
    Program.entries ⟨ds, p.span, p.predeclared ++ Library.prototypesFor p⟩ =
      ds.flatMap TopDecl.entries ++ p.predeclared.flatMap Prototype.entries ++
        (Library.prototypesFor p).flatMap Prototype.entries := by
  rw [Program.entries, List.flatMap_append, List.append_assoc]

theorem Program.Plain.entries_checked {p : Program} (hp : p.Plain) (ds : List TopDecl) :
    Program.entries ⟨ds, p.span, p.predeclared ++ Library.prototypesFor p⟩ =
      ds.flatMap TopDecl.entries ++ (Library.prototypesFor p).flatMap Prototype.entries := by
  rw [Program.entries_checked, hp.predeclared, List.flatMap_nil, List.append_nil]

/-- Numbers that are all numbers below one bound are all below another when those between are added. -/
theorem Grown.perm_range {ids ids' : List Nat} {n n' : Nat} (hg : Grown ids ids' n n')
    (h : ids.Perm (List.range n)) : ids'.Perm (List.range n') := by
  refine List.perm_iff_count.2 fun i => ?_
  have hi := hg.count i
  have hall := List.perm_iff_count.1 h i
  omega

theorem fills_of_perm {ids : List Nat} {n : Nat} (h : ids.Perm (List.range n)) : Fills ids := by
  have hlength := h.length_eq
  rw [List.length_range] at hlength
  rwa [Fills, hlength]

theorem exprIds_length (es : List Entry) : (exprIds es).length = (es.filterMap Entry.expr?).length :=
  List.length_map ..

theorem declIds_length (es : List Entry) : (declIds es).length = (es.filterMap Entry.decl?).length :=
  List.length_map ..

/-- The nodes of a program have all numbers, each once, with those of the library functions. -/
theorem complete_addTo {p : Program} (hp : p.Complete) : (Library.addTo p).Complete := by
  obtain ⟨hnoExpr, hnoStmt⟩ := ids_prototypes (Library.prototypesFor p)
  obtain ⟨n, hnumber⟩ := declIds_number p.declCount Library.entries
  have hentries : (Library.addTo p).entries = p.entries ++ (Library.prototypesFor p).flatMap Prototype.entries :=
    p.entries_checked p.decls
  constructor
  · rw [hentries, exprIds_append, hnoExpr, List.append_nil]
    exact hp.exprs
  · rw [hentries, stmtIds_append, hnoStmt, List.append_nil]
    exact hp.stmts
  · have hdecls := hp.decls
    rw [Fills, declIds_length] at hdecls
    have hall : (List.range p.declCount ++ List.range' p.declCount n) = List.range (p.declCount + n) := by
      rw [List.range_eq_range', List.range_eq_range', ← List.range'_append_1, Nat.zero_add]
    rw [hentries, declIds_append, Library.prototypesFor, hnumber]
    refine @fills_of_perm _ (p.declCount + n) ?_
    rw [← hall]
    exact hdecls.append_right _

/-- The library functions add no expression to a program. -/
theorem exprCount_addTo (p : Program) : (Library.addTo p).exprCount = p.exprCount := by
  have hentries : (Library.addTo p).entries = p.entries ++ (Library.prototypesFor p).flatMap Prototype.entries :=
    p.entries_checked p.decls
  rw [Program.exprCount, Program.exprCount, ← exprIds_length, ← exprIds_length, hentries, exprIds_append,
    (ids_prototypes _).1, List.append_nil]

/-- A check numbers anew what it adds to a program with the library functions. -/
theorem renumbered_check (options : Options) (p : Program) : ∃ n',
    Renumbered (Library.addTo p).entries (check options p).1.entries p.exprCount n' := by
  obtain ⟨ds', n', errors, own, htops, -, hcheck⟩ := check_elaborates options p
  rw [hcheck]
  exact ⟨n', htops.renumbered.append (.of_eq n' rfl rfl rfl)⟩

/-- The nodes of a checked program have all numbers, each once, if this was so before. -/
theorem complete_check (options : Options) {p : Program} (hp : p.Complete) : (check options p).1.Complete := by
  obtain ⟨n', hrenumbered⟩ := renumbered_check options p
  obtain ⟨hexprs, hstmts, hdecls⟩ := complete_addTo hp
  rw [Fills, exprIds_length] at hexprs
  constructor
  · rw [← exprCount_addTo] at hrenumbered
    exact fills_of_perm (hrenumbered.exprs.perm_range hexprs)
  · rw [hrenumbered.stmts]
    exact hstmts
  · rw [hrenumbered.decls]
    exact hdecls

/-- The numbers of the declarations of a checked program are below those of the library functions that are added. -/
theorem declIds_check (options : Options) {p : Program} (hplain : p.Plain) (hnumbered : p.Numbered) :
    (∀ i ∈ declIds ((check options p).1.decls.flatMap TopDecl.entries), i < p.arena.decls.size) ∧
      ∀ i ∈ declIds ((check options p).1.predeclared.flatMap Prototype.entries), p.arena.decls.size ≤ i := by
  have hsize : p.arena.decls.size = p.declCount := size_place _
  obtain ⟨ds', n', errors, own, htops, -, hcheck⟩ := check_elaborates options p
  obtain ⟨n, hnumber⟩ := declIds_number p.declCount Library.entries
  rw [hcheck, hsize]
  constructor
  · intro i hi
    rwa [htops.renumbered.decls, ← hplain.entries_eq, hnumbered.decls, List.mem_range] at hi
  · intro i hi
    rw [hplain.predeclared, List.nil_append, Library.prototypesFor, hnumber, List.mem_range'_1] at hi
    exact hi.1

end VCLang
