/-
Trees with other places and other names. A relabelling sends places to places and names to names; it keeps different
names apart, and it leaves alone the names that mean something by themselves: `main`, those of the predeclared
functions, and the empty one, which stands where there is none.

The shape of a tree, its numbers, its types and its bindings stay as they are, so that the nodes of a relabelled tree
are those of the tree, relabelled one by one, and a tree whose nodes stay as they are does.
-/
import VCLang.Flow
import VCLang.Library
import VCLang.Proofs.Tree.Bare
namespace VCLang

/-- Other places and other names. -/
structure Relabelling where
  span : Span → Span
  name : String → String
  name_injective : ∀ x y, name x = name y → x = y
  name_main : name "main" = "main"
  name_library : ∀ e ∈ Library.entries, name e.name = e.name
  name_empty : name "" = ""

namespace Relabelling

/-- Everything stays as it is. -/
def identity : Relabelling where
  span := id
  name := id
  name_injective _ _ h := h
  name_main := rfl
  name_library _ _ := rfl
  name_empty := rfl

/-- All places are forgotten, and the names stay as they are. -/
def placeless : Relabelling := { identity with span := fun _ => default }

theorem name_eq_main_iff {r : Relabelling} {name : String} : r.name name = "main" ↔ name = "main" := by
  constructor
  · intro h
    exact r.name_injective _ _ (h.trans r.name_main.symm)
  · rintro rfl
    exact r.name_main

end Relabelling

variable {r : Relabelling} {parent : NodeId}

/-! ## Relabelled trees -/

def Ident.relabel (r : Relabelling) (i : Ident) : Ident :=
  { i with spelling := r.name i.spelling, span := r.span i.span }

def Operator.relabel (r : Relabelling) (op : Operator) : Operator := { op with span := r.span op.span }

def ExprInfo.relabel (r : Relabelling) (i : ExprInfo) : ExprInfo := { i with span := r.span i.span }

def StmtInfo.relabel (r : Relabelling) (i : StmtInfo) : StmtInfo := { i with span := r.span i.span }

namespace Expr

mutual

def relabel (r : Relabelling) : Expr → Expr
  | binary info op left right => binary (info.relabel r) (op.relabel r) (relabel r left) (relabel r right)
  | unary info op operand => unary (info.relabel r) (op.relabel r) (relabel r operand)
  | assign info target value => assign (info.relabel r) (relabel r target) (relabel r value)
  | var info ident => var (info.relabel r) (ident.relabel r)
  | arrayAccess info ident index => arrayAccess (info.relabel r) (ident.relabel r) (relabel r index)
  | call info ident args => call (info.relabel r) (ident.relabel r) (relabelAll r args)
  | initList info elements => initList (info.relabel r) (relabelAll r elements)
  | literal info value => literal (info.relabel r) value
  | intToFloat info operand => intToFloat (info.relabel r) (relabel r operand)

def relabelAll (r : Relabelling) : List Expr → List Expr
  | [] => []
  | e :: es => relabel r e :: relabelAll r es

end

theorem relabelAll_eq (es : List Expr) : relabelAll r es = es.map (relabel r) := by
  induction es with
  | nil => rfl
  | cons e es ih => rw [relabelAll, ih, List.map_cons]

end Expr

def VarDecl.relabel (r : Relabelling) (d : VarDecl) : VarDecl :=
  { d with ident := d.ident.relabel r, span := r.span d.span, init := d.init.map (Expr.relabel r) }

namespace Stmt

mutual

def relabel (r : Relabelling) : Stmt → Stmt
  | compound info decls stmts => compound (info.relabel r) (decls.map (VarDecl.relabel r)) (relabelAll r stmts)
  | ifThen info cond thenBranch => ifThen (info.relabel r) (cond.relabel r) (relabel r thenBranch)
  | ifElse info cond thenBranch elseBranch =>
    ifElse (info.relabel r) (cond.relabel r) (relabel r thenBranch) (relabel r elseBranch)
  | whileStmt info cond body => whileStmt (info.relabel r) (cond.relabel r) (relabel r body)
  | forStmt info init cond update body =>
    forStmt (info.relabel r) (init.map (Expr.relabel r)) (cond.map (Expr.relabel r)) (update.map (Expr.relabel r))
      (relabel r body)
  | breakStmt info => breakStmt (info.relabel r)
  | continueStmt info => continueStmt (info.relabel r)
  | returnStmt info value => returnStmt (info.relabel r) (value.map (Expr.relabel r))
  | exprStmt info expr => exprStmt (info.relabel r) (expr.relabel r)
  | emptyStmt info => emptyStmt (info.relabel r)

def relabelAll (r : Relabelling) : List Stmt → List Stmt
  | [] => []
  | s :: ss => relabel r s :: relabelAll r ss

end

theorem relabelAll_eq (ss : List Stmt) : relabelAll r ss = ss.map (relabel r) := by
  induction ss with
  | nil => rfl
  | cons s ss ih => rw [relabelAll, ih, List.map_cons]

end Stmt

def Block.relabel (r : Relabelling) (b : Block) : Block :=
  ⟨b.info.relabel r, b.decls.map (VarDecl.relabel r), b.stmts.map (Stmt.relabel r)⟩

def Param.relabel (r : Relabelling) (p : Param) : Param :=
  { p with ident := p.ident.relabel r, span := r.span p.span }

def Prototype.relabel (r : Relabelling) (f : Prototype) : Prototype :=
  { f with ident := f.ident.relabel r, span := r.span f.span, params := f.params.map (Param.relabel r) }

def Function.relabel (r : Relabelling) (f : Function) : Function :=
  { f with toPrototype := f.toPrototype.relabel r, body := f.body.relabel r }

def TopDecl.relabel (r : Relabelling) : TopDecl → TopDecl
  | func f => func (f.relabel r)
  | var d => var (d.relabel r)

/-- A relabelled program. The predeclared functions, which stand nowhere in a text, stay as they are. -/
def Program.relabel (r : Relabelling) (p : Program) : Program :=
  { p with decls := p.decls.map (TopDecl.relabel r), span := r.span p.span }

/-! ## Relabelled nodes -/

def ExprKind.relabel (r : Relabelling) : ExprKind → ExprKind
  | binary op left right => binary (op.relabel r) left right
  | unary op operand => unary (op.relabel r) operand
  | var ident => var (ident.relabel r)
  | arrayAccess ident index => arrayAccess (ident.relabel r) index
  | call ident args => call (ident.relabel r) args
  | k => k

def Entry.relabel (r : Relabelling) : Entry → Entry
  | expr id node => expr id { node with kind := node.kind.relabel r, span := r.span node.span }
  | stmt id node => stmt id { node with span := r.span node.span }
  | decl id node => decl id { node with ident := node.ident.relabel r, span := r.span node.span }

/-! ## What stays -/

namespace Expr

@[simp] theorem relabel_info (e : Expr) : (e.relabel r).info = e.info.relabel r := by cases e <;> rfl

@[simp] theorem relabel_id (e : Expr) : (e.relabel r).id = e.id := by cases e <;> rfl

@[simp] theorem relabel_span (e : Expr) : (e.relabel r).span = r.span e.span := by cases e <;> rfl

@[simp] theorem relabel_type (e : Expr) : (e.relabel r).type = e.type := by cases e <;> rfl

@[simp] theorem relabel_isLvalue (e : Expr) : (e.relabel r).isLvalue = e.isLvalue := by cases e <;> rfl

@[simp] theorem relabel_isTrueLiteral (e : Expr) : (e.relabel r).isTrueLiteral = e.isTrueLiteral := by cases e <;> rfl

@[simp] theorem relabel_name (e : Expr) : (e.relabel r).name = r.name e.name := by
  cases e <;> first
    | rfl
    | exact r.name_empty.symm

@[simp] theorem relabel_kind (e : Expr) : (e.relabel r).kind = e.kind.relabel r := by
  cases e <;> simp [relabel, kind, relabelAll_eq, ExprKind.relabel]

end Expr

@[simp] theorem VarDecl.relabel_id (d : VarDecl) : (d.relabel r).id = d.id := rfl

@[simp] theorem VarDecl.relabel_kind (d : VarDecl) : (d.relabel r).kind = d.kind := by
  simp [VarDecl.kind, VarDecl.relabel, Function.comp_def]

namespace Stmt

@[simp] theorem relabel_info (s : Stmt) : (s.relabel r).info = s.info.relabel r := by cases s <;> rfl

@[simp] theorem relabel_id (s : Stmt) : (s.relabel r).id = s.id := by cases s <;> rfl

@[simp] theorem relabel_span (s : Stmt) : (s.relabel r).span = r.span s.span := by cases s <;> rfl

@[simp] theorem relabel_isReturn (s : Stmt) : (s.relabel r).isReturn = s.isReturn := by cases s <;> rfl

@[simp] theorem relabel_kind (s : Stmt) : (s.relabel r).kind = s.kind := by
  cases s <;> simp [relabel, kind, relabelAll_eq, Function.comp_def]

theorem any_map_relabel {p : Stmt → Bool} {ss : List Stmt} (h : ∀ s ∈ ss, p (s.relabel r) = p s) :
    (ss.map (relabel r)).any p = ss.any p := by
  induction ss with
  | nil => rfl
  | cons s ss ih =>
    rw [List.forall_mem_cons] at h
    rw [List.map_cons, List.any_cons, List.any_cons, h.1, ih h.2]

@[simp] theorem relabel_breaksOut (s : Stmt) : (s.relabel r).breaksOut = s.breaksOut := by
  induction s using Stmt.induct with
  | compound info decls stmts ih =>
    rw [relabel, breaksOut, breaksOut, anyBreaksOut_eq, anyBreaksOut_eq, relabelAll_eq, any_map_relabel ih]
  | ifThen info cond thenBranch ih => exact ih
  | ifElse info cond thenBranch elseBranch ihThen ihElse => rw [relabel, breaksOut, breaksOut, ihThen, ihElse]
  | _ => rfl

@[simp] theorem relabel_alwaysReturns (s : Stmt) : (s.relabel r).alwaysReturns = s.alwaysReturns := by
  induction s using Stmt.induct with
  | compound info decls stmts ih =>
    rw [relabel, alwaysReturns, alwaysReturns, anyAlwaysReturns_eq, anyAlwaysReturns_eq, relabelAll_eq,
      any_map_relabel ih]
  | ifElse info cond thenBranch elseBranch ihThen ihElse =>
    rw [relabel, alwaysReturns, alwaysReturns, ihThen, ihElse]
  | whileStmt info cond body ih => simp [relabel, alwaysReturns]
  | forStmt info init cond update body ih => cases cond <;> simp [relabel, alwaysReturns]
  | _ => rfl

end Stmt

theorem Block.relabel_toStmt (b : Block) : (b.relabel r).toStmt = b.toStmt.relabel r := by
  rw [Block.toStmt, Block.toStmt, Stmt.relabel, Stmt.relabelAll_eq]
  rfl

@[simp] theorem VarDecl.relabel_binding (d : VarDecl) : (d.relabel r).binding = d.binding := rfl

@[simp] theorem Param.relabel_binding (p : Param) : (p.relabel r).binding = p.binding := rfl

@[simp] theorem Prototype.relabel_binding (f : Prototype) : (f.relabel r).binding = f.binding := by
  simp only [Prototype.binding, Prototype.relabel, List.map_map]
  rfl

@[simp] theorem TopDecl.relabel_id (d : TopDecl) : (d.relabel r).id = d.id := by cases d <;> rfl

/-! ## The nodes of relabelled trees -/

namespace Expr

theorem relabel_children (e : Expr) : (e.relabel r).children = e.children.map (relabel r) := by
  cases e <;> simp [relabel, children, relabelAll_eq]

theorem relabel_entry (e : Expr) : (e.relabel r).entry parent = (e.entry parent).relabel r := by
  simp [entry, node, Entry.relabel, ExprInfo.relabel]

theorem relabel_entries (e : Expr) : (e.relabel r).entries parent = (e.entries parent).map (Entry.relabel r) := by
  induction e using induct_children generalizing parent with
  | h e ih =>
    rw [entries_eq, entries_eq, relabel_children, relabel_entry, relabel_id, List.flatMap_map, List.map_append,
      List.map_flatMap, List.map_singleton]
    exact congrArg (· ++ _) (List.flatMap_congr fun c hc => ih c hc)

theorem relabel_entriesOption (o : Option Expr) :
    entriesOption parent (o.map (relabel r)) = (entriesOption parent o).map (Entry.relabel r) := by
  cases o with
  | none => rfl
  | some e => exact relabel_entries e

end Expr

theorem VarDecl.relabel_entries (d : VarDecl) :
    (d.relabel r).entries parent = (d.entries parent).map (Entry.relabel r) := by
  rw [entries, entries, relabel_kind, relabel_id, List.map_append, ← Expr.relabel_entriesOption]
  rfl

namespace Stmt

theorem relabel_entry (s : Stmt) : (s.relabel r).entry parent = (s.entry parent).relabel r := by
  simp [entry, Entry.relabel]

theorem relabel_entries (s : Stmt) : (s.relabel r).entries parent = (s.entries parent).map (Entry.relabel r) := by
  induction s using Stmt.induct generalizing parent with
  | compound info decls stmts ih =>
    rw [relabel, entries, entries, entriesAll_eq, entriesAll_eq, relabelAll_eq, List.map_append, List.map_append,
      List.map_flatMap, List.map_flatMap, List.flatMap_map, List.flatMap_map, List.map_singleton, ← relabel_entry,
      relabel, relabelAll_eq]
    simp only [VarDecl.relabel_entries]
    exact congrArg (_ ++ · ++ _) (List.flatMap_congr fun s hs => ih s hs)
  | ifThen info cond thenBranch ih =>
    simp [relabel, entries, ← relabel_entry, Expr.relabel_entries, ih, StmtInfo.relabel]
  | ifElse info cond thenBranch elseBranch ihThen ihElse =>
    simp [relabel, entries, ← relabel_entry, Expr.relabel_entries, ihThen, ihElse, StmtInfo.relabel]
  | whileStmt info cond body ih =>
    simp [relabel, entries, ← relabel_entry, Expr.relabel_entries, ih, StmtInfo.relabel]
  | forStmt info init cond update body ih =>
    simp [relabel, entries, ← relabel_entry, Expr.relabel_entriesOption, ih, StmtInfo.relabel]
  | returnStmt info value =>
    simp [relabel, entries, ← relabel_entry, Expr.relabel_entriesOption, StmtInfo.relabel]
  | exprStmt info expr => simp [relabel, entries, ← relabel_entry, Expr.relabel_entries, StmtInfo.relabel]
  | breakStmt info | continueStmt info | emptyStmt info => simp [relabel, entries, ← relabel_entry]

end Stmt

theorem Function.relabel_entries (f : Function) : (f.relabel r).entries = f.entries.map (Entry.relabel r) := by
  have hbody : (f.relabel r).body.toStmt = f.body.toStmt.relabel r := f.body.relabel_toStmt
  rw [entries, entries, hbody, List.map_append, List.map_append, Stmt.relabel_entries, List.map_map]
  simp only [Function.relabel, Prototype.relabel, List.map_map]
  rfl

theorem TopDecl.relabel_entries (d : TopDecl) : (d.relabel r).entries = d.entries.map (Entry.relabel r) := by
  cases d with
  | func f => exact f.relabel_entries
  | var d => exact d.relabel_entries

namespace Program

theorem relabel_entries (p : Program) : (p.relabel r).entries =
    (p.decls.flatMap TopDecl.entries).map (Entry.relabel r) ++ p.predeclared.flatMap Prototype.entries := by
  rw [entries, relabel, List.flatMap_map, List.map_flatMap]
  simp only [TopDecl.relabel_entries]

@[simp] theorem relabel_exprCount (p : Program) : (p.relabel r).exprCount = p.exprCount := by
  have hexpr (x : Entry) : ((x.relabel r).expr?).isSome = x.expr?.isSome := by cases x <;> rfl
  rw [exprCount, exprCount, relabel_entries, entries]
  simp [List.length_filterMap_eq_countP, hexpr]

@[simp] theorem relabel_declCount (p : Program) : (p.relabel r).declCount = p.declCount := by
  have hdecl (x : Entry) : ((x.relabel r).decl?).isSome = x.decl?.isSome := by cases x <;> rfl
  rw [declCount, declCount, relabel_entries, entries]
  simp [List.length_filterMap_eq_countP, hdecl]

end Program

/-! ## Nodes that stay as they are -/

theorem map_of_fixed {α : Type} {f : α → α} {xs : List α} (h : ∀ x ∈ xs, f x = x) : xs.map f = xs :=
  (List.map_congr_left h).trans (List.map_id' xs)

/-- A relabelling leaves nodes as they are. -/
def Relabelling.Fixes (r : Relabelling) (es : List Entry) : Prop := ∀ x ∈ es, x.relabel r = x

theorem Relabelling.fixes_append {es fs : List Entry} : r.Fixes (es ++ fs) ↔ r.Fixes es ∧ r.Fixes fs :=
  List.forall_mem_append

theorem Relabelling.fixes_singleton {x : Entry} : r.Fixes [x] ↔ x.relabel r = x := List.forall_mem_singleton

theorem Relabelling.Fixes.of_mem {α : Type} {xs : List α} {f : α → List Entry} (h : r.Fixes (xs.flatMap f)) {x : α}
    (hx : x ∈ xs) : r.Fixes (f x) := fun y hy => h y (List.mem_flatMap.2 ⟨x, hx, hy⟩)

open Relabelling

namespace Expr

/-- An expression is what its root is and what its parts are. -/
theorem eq_of_root {e e' : Expr} (hinfo : e.info = e'.info) (hkind : e.kind = e'.kind)
    (hchildren : e.children = e'.children) : e = e' := by
  cases e <;> cases e' <;> simp_all [info, kind, children]

/-- An expression whose nodes stay as they are does. -/
theorem relabel_fixed {e : Expr} (h : r.Fixes (e.entries parent)) : e.relabel r = e := by
  induction e using induct_children generalizing parent with
  | h e ih =>
    rw [entries_eq, fixes_append, fixes_singleton] at h
    obtain ⟨hchildren, hroot⟩ := h
    simp only [entry, Entry.relabel, node, Entry.expr.injEq, ExprNode.mk.injEq, true_and] at hroot
    refine eq_of_root ?_ ?_ ?_
    · rw [relabel_info, ExprInfo.relabel]
      exact congrArg (fun span => { e.info with span }) hroot.2.1
    · rw [relabel_kind, hroot.1]
    · rw [relabel_children]
      exact map_of_fixed fun c hc => ih c hc (hchildren.of_mem hc)

theorem relabel_fixedOption {o : Option Expr} (h : r.Fixes (entriesOption parent o)) : o.map (relabel r) = o := by
  cases o with
  | none => rfl
  | some e => exact congrArg some (relabel_fixed h)

end Expr

theorem VarDecl.relabel_fixed {d : VarDecl} (h : r.Fixes (d.entries parent)) : d.relabel r = d := by
  rw [entries, fixes_append, fixes_singleton] at h
  obtain ⟨hinit, hroot⟩ := h
  simp only [Entry.relabel, Entry.decl.injEq, DeclNode.mk.injEq, true_and] at hroot
  rw [relabel, Expr.relabel_fixedOption hinit, hroot.1, hroot.2.1]

theorem Stmt.relabel_fixed {s : Stmt} (h : r.Fixes (s.entries parent)) : s.relabel r = s := by
  have hinfo {s : Stmt} {parent : NodeId} (i : StmtInfo) (h : (s.entry parent).relabel r = s.entry parent)
      (hi : s.info = i) : i.relabel r = i := by
    subst hi
    simp only [entry, Entry.relabel, Entry.stmt.injEq, StmtNode.mk.injEq, true_and, and_true] at h
    exact congrArg (fun span => { s.info with span }) h
  induction s using Stmt.induct generalizing parent with
  | compound info decls stmts ih =>
    rw [entries, entriesAll_eq, fixes_append, fixes_append, fixes_singleton] at h
    obtain ⟨⟨hdecls, hstmts⟩, hroot⟩ := h
    rw [relabel, relabelAll_eq, hinfo info hroot rfl, map_of_fixed fun d hd => VarDecl.relabel_fixed (hdecls.of_mem hd),
      map_of_fixed fun s hs => ih s hs (hstmts.of_mem hs)]
  | ifThen info cond thenBranch ih =>
    rw [entries, fixes_append, fixes_append, fixes_singleton] at h
    rw [relabel, hinfo info h.2 rfl, Expr.relabel_fixed h.1.1, ih h.1.2]
  | ifElse info cond thenBranch elseBranch ihThen ihElse =>
    rw [entries, fixes_append, fixes_append, fixes_append, fixes_singleton] at h
    rw [relabel, hinfo info h.2 rfl, Expr.relabel_fixed h.1.1.1, ihThen h.1.1.2, ihElse h.1.2]
  | whileStmt info cond body ih =>
    rw [entries, fixes_append, fixes_append, fixes_singleton] at h
    rw [relabel, hinfo info h.2 rfl, Expr.relabel_fixed h.1.1, ih h.1.2]
  | forStmt info init cond update body ih =>
    rw [entries, fixes_append, fixes_append, fixes_append, fixes_append, fixes_singleton] at h
    obtain ⟨⟨⟨⟨hinit, hcond⟩, hupdate⟩, hbody⟩, hroot⟩ := h
    rw [relabel, hinfo info hroot rfl, Expr.relabel_fixedOption hinit, Expr.relabel_fixedOption hcond,
      Expr.relabel_fixedOption hupdate, ih hbody]
  | breakStmt info | continueStmt info | emptyStmt info =>
    rw [entries, fixes_singleton] at h
    rw [relabel, hinfo info h rfl]
  | returnStmt info value =>
    rw [entries, fixes_append, fixes_singleton] at h
    rw [relabel, hinfo info h.2 rfl, Expr.relabel_fixedOption h.1]
  | exprStmt info expr =>
    rw [entries, fixes_append, fixes_singleton] at h
    rw [relabel, hinfo info h.2 rfl, Expr.relabel_fixed h.1]

theorem Block.relabel_fixed {b : Block} (h : r.Fixes (b.toStmt.entries parent)) : b.relabel r = b := by
  have htoStmt : (b.relabel r).toStmt = b.toStmt := by rw [relabel_toStmt, Stmt.relabel_fixed h]
  obtain ⟨hinfo, hdecls, hstmts⟩ := Stmt.compound.inj htoStmt
  obtain ⟨info, decls, stmts⟩ := b
  exact (Block.mk.injEq ..).mpr ⟨hinfo, hdecls, hstmts⟩

theorem Function.relabel_fixed {f : Function} (h : r.Fixes f.entries) : f.relabel r = f := by
  rw [entries, fixes_append, fixes_append, fixes_singleton] at h
  obtain ⟨⟨hparams, hbody⟩, hroot⟩ := h
  simp only [Entry.relabel, Entry.decl.injEq, DeclNode.mk.injEq, true_and] at hroot
  have hparam : f.params.map (Param.relabel r) = f.params := map_of_fixed fun p hp => by
    have hentry := hparams _ (List.mem_map_of_mem hp)
    simp only [Param.entry, Entry.relabel, Entry.decl.injEq, DeclNode.mk.injEq, true_and] at hentry
    rw [Param.relabel, hentry.1, hentry.2.1]
  rw [relabel, Prototype.relabel, Block.relabel_fixed hbody, hparam, hroot.1, hroot.2.1]

/-- A program whose nodes stay as they are, in a text whose span does, stays as it is. -/
theorem Program.relabel_fixed {p : Program} (h : r.Fixes (p.decls.flatMap TopDecl.entries))
    (hspan : r.span p.span = p.span) : p.relabel r = p := by
  have hdecl (d : TopDecl) (hd : d ∈ p.decls) : d.relabel r = d := by
    have hentries := h.of_mem hd
    cases d with
    | func f => exact congrArg TopDecl.func (Function.relabel_fixed hentries)
    | var d => exact congrArg TopDecl.var (VarDecl.relabel_fixed hentries)
  rw [relabel, map_of_fixed hdecl, hspan]

theorem Program.relabel_identity (p : Program) : p.relabel .identity = p := by
  refine relabel_fixed (fun x _ => ?_) rfl
  cases x with
  | expr id node =>
    have hkind : node.kind.relabel .identity = node.kind := by cases node.kind <;> rfl
    rw [Entry.relabel, hkind]
    rfl
  | stmt id node => rfl
  | decl id node => rfl

/-! ## Forgetting places -/

theorem ExprKind.relabel_placeless (k : ExprKind) : k.relabel .placeless = k.unspanned := by cases k <;> rfl

theorem Entry.relabel_placeless (x : Entry) : x.relabel .placeless = x.unspanned := by
  cases x with
  | expr id node =>
    rw [relabel, node.kind.relabel_placeless]
    rfl
  | stmt id node => rfl
  | decl id node => rfl

theorem ExprKind.unspanned_unspanned (k : ExprKind) : k.unspanned.unspanned = k.unspanned := by cases k <;> rfl

theorem Entry.unspanned_unspanned (x : Entry) : x.unspanned.unspanned = x.unspanned := by
  cases x with
  | expr id node => exact congrArg (fun k => expr id ⟨k, default, node.parent, node.ty⟩) node.kind.unspanned_unspanned
  | stmt id node => rfl
  | decl id node => rfl

/-- Programs that are the same without their places have the same flat form without places. -/
theorem Program.arena_unspanned_of_placeless {p p' : Program} (h : p.relabel .placeless = p'.relabel .placeless) :
    p.arena.unspanned = p'.arena.unspanned := by
  have hnodes (p : Program) : p.entries.map Entry.unspanned = (p.relabel .placeless).entries.map Entry.unspanned := by
    rw [relabel_entries, entries, List.map_append, List.map_append, List.map_map]
    simp only [Function.comp_def, Entry.relabel_placeless, Entry.unspanned_unspanned]
  have hids (p : Program) : p.decls.map TopDecl.id = (p.relabel .placeless).decls.map TopDecl.id := by
    simp [relabel, Function.comp_def]
  rw [p.arena_unspanned, p'.arena_unspanned, hnodes p, hnodes p', hids p, hids p', h]

end VCLang
