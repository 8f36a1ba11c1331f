/-
What the check accepts is well typed in the flat form: the nodes of checked declarations, statements and
functions are right, and the declarations of a program say of the names in scope what the check knows of
them, although it knows some of them before they are checked.
-/
import VCLang.Proofs.Elaboration.Renumbering
import VCLang.Proofs.Grammar.Built
import VCLang.Proofs.Typing.Judgement
import VCLang.Proofs.Typing.Nodes
namespace VCLang

open Static Check

namespace Arena

variable {src a : Arena}

/-! ## Nodes of declarations and statements -/

theorem rightDecl_var {d : VarDecl} {parent : Option NodeId} (hvoid : NotVoid d.ty)
    (hinit : a.Initial d.ty (d.init.map Expr.id)) : a.RightDecl ⟨d.kind, d.ident, d.ty, d.span, parent⟩ := by
  unfold RightDecl VarDecl.kind
  cases d.isGlobal <;> exact ⟨hvoid, hinit⟩

theorem allRight_decl {id : DeclId} {n : DeclNode} (h : a.RightDecl n) : AllRight src a [.decl id n] := by
  intro x hx
  rw [List.mem_singleton] at hx
  subst hx
  exact h

theorem Has.decl {id : DeclId} {n : DeclNode} (h : a.Has [.decl id n]) : a.decl? id = some n :=
  h _ (List.mem_singleton_self _)

theorem Has.stmt {s : Stmt} {parent : NodeId} (h : a.Has [s.entry parent]) : a.stmtKind? s.id = some s.kind := by
  have hroot : a.stmt? s.id = some ⟨s.kind, s.span, some parent⟩ := h _ (List.mem_singleton_self _)
  rw [stmtKind?, hroot]
  rfl

theorem Has.param {ps : List Param} {parent : NodeId} (h : a.Has (ps.map (Param.entry parent))) {p : Param}
    (hp : p ∈ ps) : a.decl? p.id = some ⟨.param, p.ident, p.ty, p.span, some parent⟩ :=
  h _ (List.mem_map_of_mem hp)

end Arena

theorem Static.NotVoid.of_sameButSize {t s : Ty} (h : NotVoid t) (hts : t.SameButSize s) : NotVoid s := by
  cases hts with
  | same => exact h
  | @size element n m =>
    refine ⟨by simp, fun size heq => ?_⟩
    cases heq
    exact h.2 n rfl

namespace Typing

open Arena

variable {src a : Arena} {env : Env} {n n' : Nat} {e e' : Expr} {parent parent' : NodeId}

theorem RunsOption.sound {o o' : Option Expr} (h : RunsOption env n o o' n') (hΓ : env.scope.Proper)
    (hA : a.Agrees env) (ho : ∀ e ∈ o, e.Plain) (hs : src.Has (Expr.entriesOption parent o))
    (ha : a.Has (Expr.entriesOption parent' o')) : AllRight src a (Expr.entriesOption parent' o') := by
  cases h with
  | none => exact allRight_nil
  | some hrun => exact checksSoundly hΓ hA (ho _ rfl) hrun hs ha

/-- What is stored where a type is declared is of this type behind the conversion. -/
theorem RunsStore.sound {target : Ty} (h : RunsStore env target n e e' n') (hΓ : env.scope.Proper)
    (hA : a.Agrees env) (htarget : target.Proper) (he : e.Plain) (hs : src.Has (e.entries parent)) :
    Sound src a e' ∧ e'.info.ty = some target ∧ target.isArray = false := by
  obtain ⟨checked, n₁, hrun, hassign, hw⟩ := h
  have hty := (root_checkExpr hrun).typed
  have hproper := ((finds hΓ he).sound hrun).proper hΓ
  have hstores := (assignable_iff htarget hproper).1 hassign
  refine ⟨sound_converted hty hw (checksSoundly hΓ hA he hrun hs), ?_, isArray_of_stores hstores⟩
  rw [hw.typed hty, widened_of_stores hstores]

theorem RunsElements.sound {element : Ty} {es es' : List Expr} (h : RunsElements env element n es es' n')
    (hΓ : env.scope.Proper) (hA : a.Agrees env) (helement : element.Proper) (hes : ∀ e ∈ es, e.Plain)
    (hs : src.Has (es.flatMap (Expr.entries parent))) :
    (∀ e ∈ es', Sound src a e ∧ e.info.ty = some element) ∧ es'.length = es.length := by
  induction h with
  | nil => exact ⟨by simp, rfl⟩
  | cons hstore _ ih =>
    rw [List.flatMap_cons, has_append] at hs
    obtain ⟨hsound, htyped, -⟩ := hstore.sound hΓ hA helement (hes _ (by simp)) hs.1
    obtain ⟨hall, hlength⟩ := ih (fun e he => hes e (by simp [he])) hs.2
    exact ⟨List.forall_mem_cons.2 ⟨⟨hsound, htyped⟩, hall⟩, by simp [hlength]⟩

section Variables

variable {d d' : VarDecl}

theorem RunsInit.sameButSize (h : RunsInit env n d d' n') : d.ty.SameButSize d'.ty := by
  cases h with
  | none => exact .same
  | sized => exact .same
  | scalar => exact .same
  | list hty _ _ _ ht =>
    rw [hty, ht]
    exact .size

/-- The node of a checked variable says what is known of it, in its own initial value and behind it. -/
theorem RunsInit.backs (h : RunsInit env n d d' n') (ha : a.Has (d'.entries parent)) :
    a.Backs d.ident.spelling d.binding ∧ a.Backs d.ident.spelling d'.binding := by
  rw [VarDecl.entries, has_append] at ha
  obtain ⟨hident, hid⟩ := h.same
  have hnode := ha.2.decl
  have hnode' := hnode
  rw [hid] at hnode'
  have hname : d'.ident.spelling = d.ident.spelling := by rw [hident]
  exact ⟨.var hnode' hname (isFunction_kind d') h.sameButSize, .var hnode hname (isFunction_kind d') .same⟩

/-- The nodes of a list of initial values. -/
theorem sound_initList {info : ExprInfo} {element : Ty} {size : Nat} {es : List Expr} (helement : element.Proper)
    (hall : ∀ e ∈ es, Sound src a e ∧ e.info.ty = some element) (hlength : es.length ≤ size) :
    Sound src a (.initList (info.typed (.array element (some size))) es) := by
  intro parent ha
  rw [Expr.entries, Expr.entriesAll_eq, has_append] at ha
  rw [Expr.entries, Expr.entriesAll_eq, allRight_append]
  constructor
  · intro x hx
    obtain ⟨e, he, hx⟩ := List.mem_flatMap.1 hx
    exact (hall e he).1 (ha.1.of_mem he) x hx
  · refine allRight_entry rfl (show Ty.Proper (.array element (some size)) from helement) (.initList ?_ ?_)
    · intro id hid
      obtain ⟨e, he, rfl⟩ := List.mem_map.1 hid
      rw [(ha.1.of_mem he).expr.2, (hall e he).2]
    · rwa [List.length_map]

theorem RunsInit.sound (h : RunsInit env n d d' n') (hΓ : env.scope.Proper) (hA : a.Agrees env) (hd : d.Plain)
    (hvoid : NotVoid d.ty) (hs : src.Has (d.entries parent)) (ha : a.Has (d'.entries parent')) :
    AllRight src a (d'.entries parent') := by
  have hty : d.ty.Proper := hd.ty.proper
  have hvoid' := hvoid.of_sameButSize h.sameButSize
  rw [VarDecl.entries, has_append] at hs ha
  rw [VarDecl.entries, allRight_append]
  cases h with
  | none hscalar hinit =>
    rw [hinit]
    refine ⟨allRight_nil, allRight_decl (rightDecl_var hvoid ?_)⟩
    rw [hinit]
    exact .none hscalar
  | sized hsized hinit =>
    rw [hinit]
    refine ⟨allRight_nil, allRight_decl (rightDecl_var hvoid ?_)⟩
    rw [hinit, hsized]
    exact .sized
  | scalar hscalar hinit hlist hstore =>
    rw [hinit] at hs
    obtain ⟨hsound, htyped, -⟩ := hstore.sound hΓ hA hty (hd.expr hinit hlist) hs.1
    refine ⟨hsound ha.1, allRight_decl (rightDecl_var hvoid' (.scalar hscalar ?_))⟩
    rw [ha.1.expr.2, htyped]
  | @list element size info es es' _ t harray hinit hlength hes ht =>
    -- the size is the written one, which the elements do not exceed, or how many elements there are
    subst ht
    rw [hinit] at hs
    have hsource := hs.1
    rw [Expr.entriesOption, Expr.entries, Expr.entriesAll_eq, has_append] at hsource
    have helement : element.Proper := by rwa [harray] at hty
    obtain ⟨hall, hlength'⟩ := hes.sound hΓ hA helement (hd.elements hinit) hsource.1
    have hsound := @sound_initList src a info _ (size.getD es.length) _ helement hall (by omega)
    refine ⟨hsound ha.1, allRight_decl (rightDecl_var hvoid' (.list ha.1.expr.1 ?_))⟩
    rw [ha.1.expr.2]
    rfl

theorem sound_decls {ds ds' : List VarDecl} {k k' : Checker} (hrun : (checkVarDecls ds).Runs k ds' k')
    (hΓ : k.env.scope.Proper) (hA : a.Agrees k.env) (hds : ∀ d ∈ ds, d.Plain)
    (hs : src.Has (ds.flatMap (VarDecl.entries parent))) (ha : a.Has (ds'.flatMap (VarDecl.entries parent'))) :
    AllRight src a (ds'.flatMap (VarDecl.entries parent')) ∧ a.Agrees k'.env := by
  induction ds generalizing k ds' with
  | nil =>
    obtain ⟨rfl, rfl⟩ := runs_pure.1 hrun
    exact ⟨allRight_nil, hA⟩
  | cons d ds ih =>
    simp only [checkVarDecls, runs_bind, runs_pure] at hrun
    obtain ⟨d', k₁, hd, ds', _, hrest, rfl, rfl⟩ := hrun
    have hplain := hds d (by simp)
    have hΓ₁ : k₁.env.scope.Proper := ((declares_iff hΓ hplain _).1 ⟨d', k₁, hd, rfl⟩).proper hΓ hplain
    obtain ⟨-, hvoid, n', hinit, rfl⟩ := runs_checkVarDecl.1 hd
    rw [List.flatMap_cons, has_append] at hs ha
    obtain ⟨hown, hbehind⟩ := hinit.backs ha.1
    have hfirst := hinit.sound (hΓ.insert hplain.ty.proper) (hA.insert hown) hplain hvoid hs.1 ha.1
    obtain ⟨hright, hA'⟩ := ih hrest hΓ₁ (hA.insert hbehind) (fun d hd => hds d (by simp [hd])) hs.2 ha.2
    rw [List.flatMap_cons, allRight_append]
    exact ⟨⟨hfirst, hright⟩, hA'⟩

end Variables

/-! ## Statements -/

section Statements

variable {options : Options} {k : Checker} {f : Prototype} {inLoop : Bool}

theorem RunsCondition.sound {cond cond' : Expr} (h : RunsCondition env n cond cond' n') (hΓ : env.scope.Proper)
    (hA : a.Agrees env) (hc : cond.Plain) (hs : src.Has (cond.entries parent)) (ha : a.Has (cond'.entries parent')) :
    AllRight src a (cond'.entries parent') ∧ a.type? cond'.id = some .boolean := by
  obtain ⟨hrun, hbool⟩ := h
  have hproper := ((finds hΓ hc).sound hrun).proper hΓ
  refine ⟨checksSoundly hΓ hA hc hrun hs ha, ?_⟩
  rw [ha.expr.2, (root_checkExpr hrun).typed, (isBoolean_iff hproper).1 hbool]

theorem RunsForCondition.sound {span : Span} {cond : Option Expr} {cond' : Expr}
    (h : RunsForCondition env n span cond cond' n') (hΓ : env.scope.Proper) (hA : a.Agrees env)
    (hc : ∀ e ∈ cond, e.Plain) (hs : src.Has (Expr.entriesOption parent cond)) (ha : a.Has (cond'.entries parent')) :
    AllRight src a (cond'.entries parent') ∧ a.type? cond'.id = some .boolean := by
  cases h with
  | omitted => exact ⟨allRight_entry rfl trivial (.literal .boolean), ha.expr.2⟩
  | given h => exact h.sound hΓ hA (hc _ rfl) hs ha

/-- What is returned is right where a `return` of it stands in a function. -/
theorem RunsReturn.sound {value value' : Option Expr} {id : StmtId} (h : RunsReturn k value value' n')
    (hk : k.In f inLoop) (hA : a.Agrees k.env) (hv : ∀ e ∈ value, e.Plain)
    (hs : src.Has (Expr.entriesOption parent value)) (ha : a.Has (Expr.entriesOption parent' value'))
    (hkind : a.stmtKind? id = some (.returnStmt (value'.map Expr.id))) :
    AllRight src a (Expr.entriesOption parent' value') ∧ a.Right (site f) inLoop id := by
  cases h with
  | outside hf _ => cases hf.symm.trans hk.function
  | main hf hmain hrun hfault =>
    cases hf.symm.trans hk.function
    refine ⟨hrun.sound hk.scope hA hv hs ha, ?_⟩
    cases hrun with
    | none => cases hfault
    | @some e e' _ hrun =>
      have hproper := ((finds hk.scope (hv e rfl)).sound hrun).proper hk.scope
      refine .returnMain hkind hmain ?_
      rw [ha.expr.2, (root_checkExpr hrun).typed]
      exact congrArg some ((mainReturnFault?_iff hproper).1 hfault)
  | nothing hf hmain hassign =>
    cases hf.symm.trans hk.function
    have hstores : Stores f.ty .void := (assignable_iff hk.result (show Ty.Proper .void from trivial)).1 hassign
    exact ⟨allRight_nil, .returnNothing hkind hmain (stores_void hstores)⟩
  | @value _ e e' _ hf hmain hstore =>
    cases hf.symm.trans hk.function
    obtain ⟨hsound, htyped, hscalar⟩ := hstore.sound hk.scope hA hk.result (hv e rfl) hs
    refine ⟨hsound ha, .returnValue hkind hmain ?_ hscalar⟩
    rw [ha.expr.2, htyped]
    rfl

/-- A flat form has the declaration of a function. -/
def HasFunction (a : Arena) (f : Prototype) : Prop :=
  ∃ n, a.decl? f.id = some n ∧ n.kind.isFunction = true ∧ Arena.site n = site f

/-- The nodes of a statement are right if those in it are and if it is right itself. -/
theorem allRight_stmt {s : Stmt} {es : List Entry} (hf : HasFunction a f) (hes : AllRight src a es)
    (h : a.Right (site f) inLoop s.id) :
    AllRight src a (es ++ [s.entry parent]) ∧ a.Right (site f) inLoop s.id := by
  refine ⟨allRight_append.2 ⟨hes, ?_⟩, h⟩
  intro x hx
  rw [List.mem_singleton] at hx
  subst hx
  obtain ⟨node, hnode, hfunction, hsite⟩ := hf
  exact ⟨f.id, node, inLoop, hnode, hfunction, hsite ▸ h⟩

/-- The check of a statement in a function leaves nodes that are right. -/
def ChecksStmtSoundly (src a : Arena) (options : Options) (s : Stmt) : Prop :=
  ∀ ⦃k f inLoop s' n' parent parent'⦄, RunsStmt options k s s' n' → Checker.In k f inLoop → a.Agrees k.env →
    HasFunction a f → src.Has (s.entries parent) → a.Has (s'.entries parent') →
    AllRight src a (s'.entries parent') ∧ a.Right (site f) inLoop s'.id

theorem sound_stmts {ss : List Stmt} (h : ∀ s ∈ ss, ChecksStmtSoundly src a options s) :
    ∀ {k ss' n'}, RunsStmts options k ss ss' n' → k.In f inLoop → a.Agrees k.env → HasFunction a f →
      src.Has (ss.flatMap (Stmt.entries parent)) → a.Has (ss'.flatMap (Stmt.entries parent')) →
      AllRight src a (ss'.flatMap (Stmt.entries parent')) ∧ ∀ s' ∈ ss', a.Right (site f) inLoop s'.id := by
  induction ss with
  | nil =>
    intro k ss' n' hrun _ _ _ _ _
    cases hrun
    exact ⟨allRight_nil, by simp⟩
  | cons s ss ih =>
    intro k ss' n' hrun hk hA hf hs ha
    cases hrun with
    | @cons _ _ s' _ ss' n₁ _ hrun _ hrest =>
      rw [List.flatMap_cons, has_append] at hs ha
      rw [List.flatMap_cons, allRight_append, List.forall_mem_cons]
      obtain ⟨hall, hright⟩ := h s (by simp) hrun hk hA hf hs.1 ha.1
      obtain ⟨halls, hrights⟩ := ih (fun s hs => h s (by simp [hs])) hrest (hk.next n₁) hA hf hs.2 ha.2
      exact ⟨⟨hall, halls⟩, hright, hrights⟩

/-- Declarations and statements in braces, in a scope of their own or in that of the parameters of a function. -/
theorem sound_block {info : StmtInfo} {decls decls' : List VarDecl} {stmts stmts' : List Stmt} {k₁ : Checker}
    (hdecls : ∀ d ∈ decls, d.Plain) (h : ∀ s ∈ stmts, ChecksStmtSoundly src a options s)
    (hrun : (checkVarDecls decls).Runs k decls' k₁) (hstmts : RunsStmts options k₁ stmts stmts' n')
    (hk : k.In f inLoop) (hA : a.Agrees k.env) (hf : HasFunction a f)
    (hs : src.Has ((Stmt.compound info decls stmts).entries parent))
    (ha : a.Has ((Stmt.compound info decls' stmts').entries parent')) :
    AllRight src a ((Stmt.compound info decls' stmts').entries parent') ∧ a.Right (site f) inLoop info.id := by
  rw [Stmt.entries, Stmt.entriesAll_eq, has_append, has_append] at hs ha
  rw [Stmt.entries, Stmt.entriesAll_eq]
  obtain ⟨hfirst, hA₁⟩ := sound_decls hrun hk.scope hA hdecls hs.1.1 ha.1.1
  obtain ⟨hrest, hright⟩ := sound_stmts h hstmts (hk.behind hdecls hrun) hA₁ hf hs.1.2 ha.1.2
  refine allRight_stmt hf (allRight_append.2 ⟨hfirst, hrest⟩) (.compound (Has.stmt ha.2) ?_)
  intro id hid
  obtain ⟨s', hs', rfl⟩ := List.mem_map.1 hid
  exact hright s' hs'

/-- The check of a statement leaves nodes that are right if those of the statements under it do. -/
theorem RunsStmt.sound_of_stmts {s s' : Stmt} (h : RunsStmt options k s s' n') (hplain : s.Plain)
    (hstmts : ∀ t ∈ s.stmts, ChecksStmtSoundly src a options t) (hk : k.In f inLoop) (hA : a.Agrees k.env)
    (hf : HasFunction a f) (hs : src.Has (s.entries parent)) (ha : a.Has (s'.entries parent')) :
    AllRight src a (s'.entries parent') ∧ a.Right (site f) inLoop s'.id := by
  have hexprs := hplain.exprs
  cases h with
  | compound hrun hbody => exact sound_block hplain.vars hstmts hrun hbody hk.inner hA.openScope hf hs ha
  | @ifThen _ _ _ cond' _ then' n₁ _ hc hthen =>
    rw [Stmt.entries, has_append, has_append] at hs ha
    rw [Stmt.entries]
    obtain ⟨hcond', hty⟩ := hc.sound hk.scope hA (hexprs _ (by simp [Stmt.exprs])) hs.1.1 ha.1.1
    obtain ⟨hthen', hright⟩ := hstmts _ (by simp [Stmt.stmts]) hthen (hk.next n₁) hA hf hs.1.2 ha.1.2
    exact allRight_stmt hf (allRight_append.2 ⟨hcond', hthen'⟩) (.ifThen (Has.stmt ha.2) hty hright)
  | @ifElse _ _ _ cond' _ then' _ else' n₁ n₂ _ hc hthen helse =>
    rw [Stmt.entries, has_append, has_append, has_append] at hs ha
    rw [Stmt.entries]
    obtain ⟨hcond', hty⟩ := hc.sound hk.scope hA (hexprs _ (by simp [Stmt.exprs])) hs.1.1.1 ha.1.1.1
    obtain ⟨hthen', hright⟩ := hstmts _ (by simp [Stmt.stmts]) hthen (hk.next n₁) hA hf hs.1.1.2 ha.1.1.2
    obtain ⟨helse', hright'⟩ := hstmts _ (by simp [Stmt.stmts]) helse (hk.next n₂) hA hf hs.1.2 ha.1.2
    have hparts := allRight_append.2 ⟨allRight_append.2 ⟨hcond', hthen'⟩, helse'⟩
    exact allRight_stmt hf hparts (.ifElse (Has.stmt ha.2) hty hright hright')
  | @whileStmt _ _ _ cond' _ body' n₁ _ hc hbody =>
    rw [Stmt.entries, has_append, has_append] at hs ha
    rw [Stmt.entries]
    obtain ⟨hcond', hty⟩ := hc.sound hk.scope hA (hexprs _ (by simp [Stmt.exprs])) hs.1.1 ha.1.1
    obtain ⟨hbody', hright⟩ := hstmts _ (by simp [Stmt.stmts]) hbody (hk.enter n₁) hA hf hs.1.2 ha.1.2
    exact allRight_stmt hf (allRight_append.2 ⟨hcond', hbody'⟩) (.whileStmt (Has.stmt ha.2) hty hright)
  | @forStmt _ _ _ init' _ _ update' cond' _ body' n₁ n₂ n₃ _ hi hc hu hbody =>
    rw [Stmt.entries, has_append, has_append, has_append, has_append] at hs ha
    rw [Stmt.entries]
    obtain ⟨⟨⟨⟨hsi, hsc⟩, hsu⟩, hsb⟩, -⟩ := hs
    obtain ⟨⟨⟨⟨hai, hac⟩, hau⟩, hab⟩, har⟩ := ha
    cases hplain with
    | forStmt hinit hcond hupdate _ =>
      have hinit' := hi.sound hk.scope hA hinit hsi hai
      obtain ⟨hcond', hty⟩ := hc.sound hk.scope hA hcond hsc hac
      have hupdate' := hu.sound hk.scope hA hupdate hsu hau
      obtain ⟨hbody', hright⟩ := hstmts _ (by simp [Stmt.stmts]) hbody (hk.enter n₃) hA hf hsb hab
      have hparts := allRight_append.2 ⟨allRight_append.2 ⟨allRight_append.2 ⟨hinit', hcond'⟩, hupdate'⟩, hbody'⟩
      exact allRight_stmt hf hparts (.forStmt (Has.stmt har) hty hright)
  | breakStmt hloop =>
    -- the depth counts the loops, so that there is one here
    have hright : a.Right (site f) true _ := .breakStmt (Has.stmt ha)
    rw [← hk.loop.1 hloop] at hright
    exact allRight_stmt hf allRight_nil hright
  | continueStmt hloop =>
    have hright : a.Right (site f) true _ := .continueStmt (Has.stmt ha)
    rw [← hk.loop.1 hloop] at hright
    exact allRight_stmt hf allRight_nil hright
  | returnStmt hrun =>
    rw [Stmt.entries, has_append] at hs ha
    rw [Stmt.entries]
    obtain ⟨hvalue', hright⟩ :=
      hrun.sound hk hA (fun e he => hexprs e (Option.mem_toList.2 he)) hs.1 ha.1 (Has.stmt ha.2)
    exact allRight_stmt hf hvalue' hright
  | exprStmt hrun =>
    rw [Stmt.entries, has_append] at hs ha
    rw [Stmt.entries]
    have hstmt := Has.stmt ha.2
    have hsound := sound_whole hrun hk.scope hA (hexprs _ (by simp [Stmt.exprs])) hs.1 ⟨_, hstmt⟩
    exact allRight_stmt hf (hsound ha.1) (.exprStmt hstmt (ha.1.expr.2.trans (root_checkExpr hrun).typed))
  | emptyStmt => exact allRight_stmt hf allRight_nil (.emptyStmt (Has.stmt ha))

theorem checksStmtSoundly {s : Stmt} (hs : s.Plain) : ChecksStmtSoundly src a options s := by
  induction s using Stmt.induct_stmts with
  | h s ih => exact fun _ _ _ _ _ _ _ h => h.sound_of_stmts hs fun t ht => ih t ht (hs.stmts t ht)

end Statements

/-! ## Functions -/

section Functions

variable {options : Options} {k k' : Checker}

theorem notVoid_params {Γ Γ' : Scope} {ps : List Param} (h : DeclaresParams Γ ps Γ') : ∀ p ∈ ps, NotVoid p.ty := by
  induction h with
  | nil => simp
  | cons _ hvoid _ ih => exact List.forall_mem_cons.2 ⟨hvoid, ih⟩

theorem sound_params {ps : List Param} (h : ∀ p ∈ ps, NotVoid p.ty) :
    AllRight src a (ps.map (Param.entry parent)) := by
  intro x hx
  obtain ⟨p, hp, rfl⟩ := List.mem_map.1 hx
  exact h p hp

/-- Parameters are known as they are declared. -/
theorem agrees_params {ps : List Param} (hA : a.Agrees env) (h : a.Has (ps.map (Param.entry parent))) :
    a.Agrees (bindParams env ps) := by
  induction ps generalizing env with
  | nil => exact hA
  | cons p ps ih =>
    have hp := Has.param h (List.mem_cons_self ..)
    exact ih (hA.insert (.var hp rfl rfl .same)) fun x hx => h x (List.mem_cons_of_mem _ hx)

/-- A function is known as it is declared, whether it has a body or not. -/
theorem backs_func {f : Prototype} {body : Option StmtId} {hasReturn : Bool} {owner : Option NodeId}
    (hparams : a.Has (f.params.map (Param.entry (.decl f.id))))
    (hnode : a.decl? f.id = some ⟨.func (f.params.map Param.id) body hasReturn, f.ident, f.ty, f.span, owner⟩) :
    a.Backs f.ident.spelling f.binding := by
  refine .func hnode rfl rfl ?_
  rw [List.forall₂_map_left_iff, List.forall₂_map_right_iff, List.forall₂_same]
  intro p hp
  exact ⟨_, Has.param hparams hp, rfl⟩

theorem RunsFunction.sound {f f' : Function} (h : RunsFunction .standard k f f' n') (hk : k.Outside) (hf : f.Plain)
    (hA : a.Agrees k.env) (hs : src.Has f.entries) (ha : a.Has f'.entries) :
    AllRight src a f'.entries ∧ a.Backs f.ident.spelling f.binding := by
  have hin := in_body hk hf h.params
  obtain ⟨-, hparams, ⟨decls', k₁, stmts', hrun, hstmts, rfl⟩, hreturns⟩ := h
  obtain ⟨hdecls, hplain⟩ := hf.parts
  rw [Function.entries, has_append, has_append] at hs ha
  rw [Function.entries, allRight_append, allRight_append]
  obtain ⟨⟨-, hsbody⟩, -⟩ := hs
  obtain ⟨⟨haparams, habody⟩, haroot⟩ := ha
  -- the function is in scope in its own body, where the declaration says what it will be
  have hnode := haroot.decl
  have hbacks : a.Backs f.ident.spelling f.binding := backs_func haparams hnode
  have hA' : a.Agrees (bindParams (k.inside f).env f.params) := agrees_params (hA.insert hbacks).openScope haparams
  obtain ⟨hbody, hright⟩ := sound_block hdecls (fun s hs => checksStmtSoundly (hplain s hs)) hrun hstmts hin hA'
    ⟨_, hnode, rfl, rfl⟩ hsbody habody
  refine ⟨⟨⟨sound_params (notVoid_params hparams), hbody⟩, allRight_decl ⟨?_, ?_⟩⟩, hbacks⟩
  · intro id hid
    obtain ⟨p, hp, rfl⟩ := List.mem_map.1 hid
    exact ⟨_, Has.param haparams hp, rfl⟩
  · rintro _ ⟨⟩
    exact ⟨hright, missingReturn?_iff.1 hreturns⟩

end Functions

/-! ## Programs -/

section Programs

variable {k k' : Checker} {ds ds' : List TopDecl}

theorem RunsTops.sound (h : RunsTops .standard k ds ds' k') (hk : k.Outside) (hds : ∀ d ∈ ds, d.Plain)
    (hA : a.Agrees k.env) (hs : src.Has (ds.flatMap TopDecl.entries)) (ha : a.Has (ds'.flatMap TopDecl.entries)) :
    AllRight src a (ds'.flatMap TopDecl.entries) ∧ a.Agrees k'.env := by
  induction h with
  | nil => exact ⟨allRight_nil, hA⟩
  | @cons k k₁ k' d d' ds ds' hd _ ih =>
    have hplain := hds d (by simp)
    rw [List.flatMap_cons, has_append] at hs ha
    -- what the declaration leaves is right, and what follows knows the name as it is declared
    obtain ⟨hright, hA₁⟩ : AllRight src a d'.entries ∧ a.Agrees k₁.env := by
      cases hd with
      | func hf =>
        cases hplain with
        | func hplain =>
          obtain ⟨hright, hbacks⟩ := hf.sound hk hplain hA hs.1 ha.1
          exact ⟨hright, hA.insert hbacks⟩
      | var hd =>
        cases hplain with
        | var hplain =>
          obtain ⟨-, hvoid, n', hinit, rfl⟩ := runs_checkVarDecl.1 hd
          obtain ⟨hown, hbehind⟩ := hinit.backs ha.1
          have hright := hinit.sound (hk.scope.insert hplain.ty.proper) (hA.insert hown) hplain hvoid hs.1 ha.1
          exact ⟨hright, hA.insert hbehind⟩
    obtain ⟨hrights, hA'⟩ := ih (outside_next hk hplain hd) (fun d hd => hds d (by simp [hd])) hA₁ hs.2 ha.2
    rw [List.flatMap_cons, allRight_append]
    exact ⟨⟨hright, hrights⟩, hA'⟩

/-- A name in scope behind some declarations was so before or is of one of them. -/
theorem RunsTops.declared {options : Options} (h : RunsTops options k ds ds' k') {name : String} {b : Binding}
    (hb : k'.env.retrieve name = some b) : k.env.retrieve name = some b ∨ b.decl ∈ ds'.map TopDecl.id := by
  induction h with
  | nil => exact .inl hb
  | @cons k k₁ k' d d' ds ds' hd _ ih =>
    rw [List.map_cons, List.mem_cons]
    have hstep (hb : k₁.env.retrieve name = some b) : k.env.retrieve name = some b ∨ b.decl = d'.id := by
      cases hd with
      | func hf =>
        obtain ⟨-, -, ⟨_, _, _, -, -, rfl⟩, -⟩ := hf
        rcases Scopes.of_retrieve_insert hb with ⟨-, rfl⟩ | hb
        · exact .inr rfl
        · exact .inl hb
      | var hd =>
        obtain ⟨-, -, n', -, rfl⟩ := runs_checkVarDecl.1 hd
        rcases Scopes.of_retrieve_insert hb with ⟨-, rfl⟩ | hb
        · exact .inr rfl
        · exact .inl hb
    rcases ih hb with hb | hmem
    · rcases hstep hb with hb | heq
      · exact .inl hb
      · exact .inr (.inl heq)
    · exact .inr (.inr hmem)

/-- No predeclared function is called `main`, so that it is one of the program. -/
theorem RunsTops.main {options : Options} {p : Program} (h : RunsTops options (.initial p) p.decls ds' k')
    {params : List Ty} (hmain : k'.env.scope.retrieve "main" = some (.func .int params)) (hA : a.Agrees k'.env) :
    ∃ d ∈ ds'.map TopDecl.id, ∃ n, a.decl? d = some n ∧ n.ident.spelling = "main" ∧ n.kind.isFunction = true ∧
      n.ty = .int := by
  obtain ⟨d, hd⟩ := Env.retrieve_scope.1 hmain
  have hmem : d ∈ ds'.map TopDecl.id := by
    rcases h.declared hd with hd | hmem
    · have hnone : (Checker.initial p).env.scope.retrieve "main" = none := by
        rw [scope_initial]
        decide
      cases (Env.retrieve_scope.2 ⟨d, hd⟩).symm.trans hnone
    · exact hmem
  generalize Ty.int = ret at hd ⊢
  cases hA _ _ hd with
  | func hn hname hkind _ => exact ⟨d, hmem, _, hn, hname, by rw [hkind]; rfl, rfl⟩

theorem sound_prototypes {fs : List Prototype} (h : ∀ f ∈ fs, ∀ p ∈ f.params, NotVoid p.ty)
    (ha : a.Has (fs.flatMap Prototype.entries)) : AllRight src a (fs.flatMap Prototype.entries) := by
  intro x hx
  obtain ⟨f, hf, hx⟩ := List.mem_flatMap.1 hx
  have haf := ha.of_mem hf
  rw [Prototype.entries, has_append] at haf
  rw [Prototype.entries, List.mem_append] at hx
  rcases hx with hx | hx
  · exact sound_params (h f hf) x hx
  · rw [List.mem_singleton] at hx
    subst hx
    refine ⟨?_, by simp⟩
    intro id hid
    obtain ⟨p, hp, rfl⟩ := List.mem_map.1 hid
    exact ⟨_, Has.param haf.1 hp, rfl⟩

theorem agrees_bindAll {fs : List Prototype} (hA : a.Agrees env) (ha : a.Has (fs.flatMap Prototype.entries)) :
    a.Agrees (Library.bindAll env fs) := by
  induction fs generalizing env with
  | nil => exact hA
  | cons f fs ih =>
    rw [List.flatMap_cons, has_append, Prototype.entries, has_append] at ha
    exact ih (hA.insert (backs_func ha.1.1 ha.1.2.decl)) ha.2

theorem notVoid_prototypes {first : Nat} {es : List Library.Entry} (h : ∀ e ∈ es, ∀ t ∈ e.params, NotVoid t) :
    ∀ f ∈ Library.number first es, ∀ p ∈ f.params, NotVoid p.ty := by
  induction es generalizing first with
  | nil => simp [Library.number]
  | cons e es ih =>
    rw [Library.number, List.forall_mem_cons]
    refine ⟨?_, ih fun e he => h e (by simp [he])⟩
    intro p hp
    obtain ⟨i, hi, rfl⟩ := List.mem_mapIdx.1 hp
    exact h e (by simp) _ (List.getElem_mem hi)

end Programs

end Typing

/-- What the check accepts is well typed. -/
theorem check_wellTyped {p : Program} (hplain : p.Plain) (hp : p.Numbered) (h : (check .standard p).2 = []) :
    Arena.WellTyped p.arena (check .standard p).1.arena := by
  have hcomplete := complete_check .standard hp.complete
  obtain ⟨ds', k', hrun, ⟨params, hmain⟩, hprogram⟩ := Typing.check_accepted h
  rw [hprogram] at hcomplete ⊢
  let a := Program.arena ⟨ds', p.span, p.predeclared ++ Library.prototypesFor p⟩
  have hmem (x : Entry) : a.Holds x ↔
      x ∈ ds'.flatMap TopDecl.entries ++ (Library.prototypesFor p).flatMap Prototype.entries := by
    rw [← hplain.entries_checked]
    exact hcomplete.holds_iff x
  obtain ⟨hdecls, hprototypes⟩ := Arena.has_append.1 fun x hx => (hmem x).2 hx
  have hsource : p.arena.Has (p.decls.flatMap TopDecl.entries) := by
    rw [← hplain.entries_eq]
    exact fun x hx => (hp.complete.holds_iff x).2 hx
  have hempty : a.Agrees .empty := by
    intro name b hb
    cases hb
  have hA : a.Agrees (Typing.Checker.initial p).env := Typing.agrees_bindAll hempty hprototypes
  obtain ⟨hright, hA'⟩ := hrun.sound (Typing.outside_initial p) hplain.decls hA hsource hdecls
  have hvoid : ∀ e ∈ Library.entries, ∀ t ∈ e.params, NotVoid t := by simp [Library.entries, NotVoid]
  have hall : Arena.AllRight p.arena a
      (ds'.flatMap TopDecl.entries ++ (Library.prototypesFor p).flatMap Prototype.entries) :=
    Arena.allRight_append.2 ⟨hright, Typing.sound_prototypes (Typing.notVoid_prototypes hvoid) hprototypes⟩
  constructor
  · exact fun id n h => hall (.expr id n) ((hmem _).1 h)
  · exact fun id n h => hall (.stmt id n) ((hmem _).1 h)
  · exact fun id n h => hall (.decl id n) ((hmem _).1 h)
  · exact hrun.main hmain hA'

/-- What is compiled is well typed. -/
theorem compile_wellTyped {source : String} {p : Program} (h : (compile .standard source).program = some p) :
    ∃ parsed, (parse source).result = .ok parsed ∧ Arena.WellTyped parsed.arena p.arena := by
  obtain ⟨parsed, hparsed, -, haccepted, rfl⟩ := compile_program_iff.1 h
  obtain ⟨hplain, hnumbered⟩ := parse_built hparsed
  exact ⟨parsed, hparsed, check_wellTyped hplain hnumbered haccepted⟩

/-- An array is passed by its elements, and the sum of an `int` and a `float` is converted and tagged. -/
theorem compile_wellTyped_sum : ∃ source p parsed, (compile .standard source).program = some p ∧
    (parse source).result = .ok parsed ∧ Arena.WellTyped parsed.arena p.arena := by
  let source := "int f(int a[]){return a[0];} int main(){int a[] = {1, 2}; float x = f(a) + 0.5; return 0;}"
  have hcompiled : (compile .standard source).program.isSome = true := by decide +kernel
  obtain ⟨p, hp⟩ := Option.isSome_iff_exists.1 hcompiled
  obtain ⟨parsed, hparsed, hwell⟩ := compile_wellTyped hp
  exact ⟨source, p, parsed, hp, hparsed, hwell⟩

end VCLang
