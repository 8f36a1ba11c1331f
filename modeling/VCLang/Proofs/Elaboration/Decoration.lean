/-
The check only decorates. Whatever it reports, each node of a tree stays what and where it is but for what the
check finds out about it, and the only expressions it puts in are conversions and omitted conditions.
-/
import VCLang.Proofs.Arena.Decoration
import VCLang.Proofs.Elaboration.Renumbering
import VCLang.Proofs.Typing.Nodes
namespace VCLang

open Arena

namespace Typing

variable {a b : Arena} {env env' : Env} {n n' m m' : Nat} {e e' checked : Expr} {errors : List Error}
  {parent parent' : NodeId}

/-! ## Expressions -/

theorem Elaborates.typed (h : Elaborates env n e e' n' errors) : e'.info.ty = some e'.type := by
  cases h <;> rfl

theorem Uses.sameOccurrence {ident ident' : Ident} {span : Span} {t : Ty} (h : Uses env ident span ident' t errors) :
    SameOccurrence ident ident' := by
  cases h <;> exact ⟨rfl, rfl⟩

/-- The node of a checked expression, once it is known what becomes of its kind. -/
theorem kept_entry {t : Ty} (hid : e'.id = e.id) (hspan : e'.span = e.span)
    (hparent : ParentSlot a b e.id (some parent) (some parent')) (hty : e'.info.ty = some t)
    (hkind : Decorates a b e.kind e'.kind t) : Kept a b (e.entry parent) (e'.entry parent') := by
  have hkept : ExprKept a b e.id (e.node parent) (e'.node parent') := ⟨hspan, hparent, t, hty, hkind⟩
  rw [Expr.entry, Expr.entry, hid]
  exact .expr hkept

/-- The check of an expression only decorates it, wherever a flat form holds what the check makes of it. -/
def Decorating (a b : Arena) (e : Expr) : Prop :=
  ∀ ⦃env n e' n' errors parent parent'⦄, Elaborates env n e e' n' errors → a.exprs.size ≤ n →
    a.Has (e.entries parent) → b.Has (e'.entries parent') → ParentSlot a b e.id (some parent) (some parent') →
    Decorated a b (e.entries parent) (e'.entries parent')

/-- A conversion that is put in is part of what the expression was part of. -/
theorem Converted.decorated (hc : Converted m checked e' m') (h : Elaborates env n e checked n' errors)
    (he : Decorating a b e) (hn : a.exprs.size ≤ n) (hm : a.exprs.size ≤ m) (ha : a.Has (e.entries parent))
    (hb : b.Has (e'.entries parent)) :
    Decorated a b (e.entries parent) (e'.entries parent) ∧ Slot a b e.id e'.id := by
  cases hc with
  | keep =>
    rw [h.id]
    exact ⟨he h hn ha hb .same, .same⟩
  | widen hint =>
    rw [Expr.entries, has_append] at hb
    obtain ⟨hchecked, hwrapper⟩ := hb
    have hnode : b.expr? ⟨m⟩ = some ⟨.intToFloat checked.id, checked.span, some parent, some .float⟩ :=
      hwrapper _ (List.mem_singleton.2 rfl)
    rw [h.id] at hnode
    have hsize : e.id.index < a.exprs.size := (ha _ (entry_mem_entries e parent) : a.Holds _).contains
    have htype : b.type? e.id = some .int := by
      rw [← h.id, hchecked.expr.2, h.typed, hint]
    refine ⟨?_, .converted hnode rfl hm⟩
    rw [Expr.entries]
    have hbelow := he h hn ha hchecked (.converted hnode rfl rfl hm)
    refine hbelow.snoc_added ?_
    rw [Expr.entry, Expr.node, Expr.kind, h.id]
    exact .conversion hm hsize htype

theorem ElaboratesAll.decorated {es es' : List Expr} (h : ElaboratesAll env n es es' n' errors)
    (hes : ∀ e ∈ es, Decorating a b e) (hn : a.exprs.size ≤ n) (ha : a.Has (Expr.entriesAll parent es))
    (hb : b.Has (Expr.entriesAll parent es')) :
    Decorated a b (Expr.entriesAll parent es) (Expr.entriesAll parent es') ∧
      List.Forall₂ (Slot a b) (es.map Expr.id) (es'.map Expr.id) := by
  induction es generalizing n es' errors with
  | nil =>
    cases h
    exact ⟨.nil, .nil⟩
  | cons e es ih =>
    cases h with
    | cons he hc _ hrest =>
      rw [Expr.entriesAll, has_append] at ha hb
      have hn₁ := Nat.le_trans hn (he.renumbered parent parent).le
      have hn₂ := Nat.le_trans hn₁ (hc.renumbered parent parent).le
      obtain ⟨hfirst, hslot⟩ := hc.decorated he (hes e (by simp)) hn hn₁ ha.1 hb.1
      obtain ⟨hmore, hslots⟩ := ih hrest (fun e he => hes e (by simp [he])) hn₂ ha.2 hb.2
      exact ⟨hfirst.append hmore, .cons hslot hslots⟩

theorem decorating_binary {info : ExprInfo} {op : Operator} {left right : Expr} (ihl : Decorating a b left)
    (ihr : Decorating a b right) : Decorating a b (.binary info op left right) := by
  intro env n e' n' errors parent parent' h hn ha hb hparent
  rw [Expr.entries, has_append, has_append] at ha
  rw [Expr.entries]
  cases h with
  | @binary _ _ _ left' left'' _ right' right'' t u _ n₁ n₂ n₃ _ _ _ hl hr hop hu hwl hwr =>
    subst hu
    rw [Expr.entries, has_append, has_append] at hb
    rw [Expr.entries]
    let p : NodeId := .expr info.id
    have hn₁ := Nat.le_trans hn (hl.renumbered p p).le
    have hn₂ := Nat.le_trans hn₁ (hr.renumbered p p).le
    have hcl := hwl.converted int_of_unified.1
    have hn₃ := Nat.le_trans hn₂ (hcl.renumbered p p).le
    obtain ⟨hleft, hslotl⟩ := hcl.decorated hl ihl hn hn₂ ha.1.1 hb.1.1
    obtain ⟨hright, hslotr⟩ := (hwr.converted int_of_unified.2).decorated hr ihr hn₁ hn₃ ha.1.2 hb.1.2
    obtain ⟨s, htag, hsl, hsr⟩ := taggedBinary_of hop
    -- behind the conversions both operands have the type that the tag says
    have htypes : b.type? left''.id = some s ∧ b.type? right''.id = some s := by
      rw [hb.1.1.expr.2, hb.1.2.expr.2, hwl.typed hl.typed, hwr.typed hr.typed, hsl, hsr]
      exact ⟨rfl, rfl⟩
    exact (hleft.append hright).snoc
      (kept_entry rfl rfl hparent rfl (.binary htag hslotl hslotr htypes.1 htypes.2))
  | binaryError hl hr _ =>
    rw [Expr.entries, has_append, has_append] at hb
    rw [Expr.entries]
    have hn₁ := Nat.le_trans hn (hl.renumbered (.expr info.id) (.expr info.id)).le
    have hleft := ihl hl hn ha.1.1 hb.1.1 .same
    have hright := ihr hr hn₁ ha.1.2 hb.1.2 .same
    refine (hleft.append hright).snoc (kept_entry rfl rfl hparent rfl ?_)
    rw [Expr.kind, Expr.kind, hl.id, hr.id]
    exact .binaryError

theorem decorating_assign {info : ExprInfo} {target value : Expr} (iht : Decorating a b target)
    (ihv : Decorating a b value) : Decorating a b (.assign info target value) := by
  intro env n e' n' errors parent parent' h hn ha hb hparent
  rw [Expr.entries, has_append, has_append] at ha
  rw [Expr.entries]
  cases h with
  | @assign _ _ target' _ value' value'' needed _ n₁ n₂ _ _ _ ht hv hruling hw =>
    rw [Expr.entries, has_append, has_append] at hb
    rw [Expr.entries]
    let p : NodeId := .expr info.id
    have hn₁ := Nat.le_trans hn (ht.renumbered p p).le
    have hn₂ := Nat.le_trans hn₁ (hv.renumbered p p).le
    obtain ⟨hint, hfits⟩ := assignRuling_accept hruling
    have htarget := iht ht hn ha.1.1 hb.1.1 .same
    obtain ⟨hvalue, hslot⟩ := (hw.converted hint).decorated hv ihv hn₁ hn₂ ha.1.2 hb.1.2
    have htype : b.type? target.id = some target'.type := by
      rw [← ht.id, hb.1.1.expr.2, ht.typed]
    have hvalueType : target'.type ≠ .error →
        b.type? value''.id = some target'.type ∨ b.type? value''.id = some .error := by
      intro hne
      rw [hb.1.2.expr.2, hw.typed hv.typed]
      rcases hfits hne with heq | heq
      · exact .inl (congrArg some heq)
      · -- what went wrong is no `int`, and so is not converted
        cases needed with
        | false => exact .inr (congrArg some heq)
        | true => cases heq.symm.trans (hint rfl)
    refine (htarget.append hvalue).snoc (kept_entry rfl rfl hparent rfl ?_)
    rw [Expr.kind, Expr.kind, ht.id]
    exact .assign hslot htype hvalueType
  | assignError _ ht hv _ =>
    rw [Expr.entries, has_append, has_append] at hb
    rw [Expr.entries]
    have hn₁ := Nat.le_trans hn (ht.renumbered (.expr info.id) (.expr info.id)).le
    have htarget := iht ht hn ha.1.1 hb.1.1 .same
    have hvalue := ihv hv hn₁ ha.1.2 hb.1.2 .same
    refine (htarget.append hvalue).snoc (kept_entry rfl rfl hparent rfl ?_)
    rw [Expr.kind, Expr.kind, ht.id, hv.id]
    exact .assignError

theorem decorating (a b : Arena) (he : e.Plain) : Decorating a b e := by
  induction he with
  | binary _ _ ihl ihr => exact decorating_binary ihl ihr
  | assign _ _ iht ihv => exact decorating_assign iht ihv
  | @unary info op operand _ ih =>
    intro env n e' n' errors parent parent' h hn ha hb hparent
    rw [Expr.entries, has_append] at ha
    rw [Expr.entries]
    cases h with
    | unary ho hop =>
      rw [Expr.entries, has_append] at hb
      rw [Expr.entries]
      have htype := hb.1.expr.2.trans ho.typed
      refine (ih ho hn ha.1 hb.1 .same).snoc (kept_entry rfl rfl hparent rfl ?_)
      rw [ho.id] at htype
      rw [Expr.kind, Expr.kind, ho.id]
      exact .unary (taggedUnary_of hop) htype
    | unaryError ho _ =>
      rw [Expr.entries, has_append] at hb
      rw [Expr.entries]
      refine (ih ho hn ha.1 hb.1 .same).snoc (kept_entry rfl rfl hparent rfl ?_)
      rw [Expr.kind, Expr.kind, ho.id]
      exact .unaryError
  | @var info ident =>
    intro env n e' n' errors parent parent' h _ _ _ hparent
    cases h with
    | var huse => exact .keep (kept_entry rfl rfl hparent rfl (.var huse.sameOccurrence)) .nil
  | @arrayAccess info ident index _ ih =>
    intro env n e' n' errors parent parent' h hn ha hb hparent
    rw [Expr.entries, has_append] at ha
    rw [Expr.entries]
    cases h with
    | arrayAccess hi huse =>
      rw [Expr.entries, has_append] at hb
      rw [Expr.entries]
      refine (ih hi hn ha.1 hb.1 .same).snoc (kept_entry rfl rfl hparent rfl ?_)
      rw [Expr.kind, Expr.kind, hi.id]
      exact .arrayAccess huse.sameOccurrence
  | @call info ident args _ ih =>
    intro env n e' n' errors parent parent' h hn ha hb hparent
    rw [Expr.entries, has_append] at ha
    rw [Expr.entries]
    cases h with
    | mainCall _ hargs =>
      rw [Expr.entries, has_append] at hb
      rw [Expr.entries]
      obtain ⟨hall, hslots⟩ := hargs.decorated ih hn ha.1 hb.1
      exact hall.snoc (kept_entry rfl rfl hparent rfl (.call ⟨rfl, rfl⟩ hslots))
    | call _ huse hargs _ =>
      rw [Expr.entries, has_append] at hb
      rw [Expr.entries]
      obtain ⟨hall, hslots⟩ := hargs.decorated ih hn ha.1 hb.1
      exact hall.snoc (kept_entry rfl rfl hparent rfl (.call huse.sameOccurrence hslots))
  | @literal info value =>
    intro env n e' n' errors parent parent' h _ _ _ hparent
    cases h
    exact .keep (kept_entry rfl rfl hparent rfl .literal) .nil

/-- A list of initial values, whatever type it gets. -/
theorem decorated_initList {info : ExprInfo} {elements elements' : List Expr} (t : Ty)
    (h : ElaboratesAll env n elements elements' n' errors) (helements : ∀ e ∈ elements, e.Plain)
    (hn : a.exprs.size ≤ n) (ha : a.Has ((Expr.initList info elements).entries parent))
    (hb : b.Has ((Expr.initList (info.typed t) elements').entries parent'))
    (hparent : ParentSlot a b info.id (some parent) (some parent')) :
    Decorated a b ((Expr.initList info elements).entries parent)
      ((Expr.initList (info.typed t) elements').entries parent') := by
  rw [Expr.entries, has_append] at ha hb
  rw [Expr.entries, Expr.entries]
  obtain ⟨hall, hslots⟩ := h.decorated (fun e he => decorating a b (helements e he)) hn ha.1 hb.1
  have hkind : Decorates a b (Expr.initList info elements).kind (Expr.initList (info.typed t) elements').kind t :=
    .initList hslots
  exact hall.snoc (kept_entry rfl rfl hparent rfl hkind)

theorem decorating_init (a b : Arena) (he : e.PlainInit) : Decorating a b e := by
  cases he with
  | expr he => exact decorating a b he
  | list helements =>
    intro env n e' n' errors parent parent' h hn ha hb hparent
    cases h with
    | initList h => exact decorated_initList .error h helements hn ha hb hparent

theorem ElaboratesOption.decorated {o o' : Option Expr} (h : ElaboratesOption env n o o' n' errors)
    (ho : ∀ e ∈ o, e.Plain) (hn : a.exprs.size ≤ n) (ha : a.Has (Expr.entriesOption parent o))
    (hb : b.Has (Expr.entriesOption parent o')) :
    Decorated a b (Expr.entriesOption parent o) (Expr.entriesOption parent o') ∧
      Option.Rel (Slot a b) (o.map Expr.id) (o'.map Expr.id) := by
  cases h with
  | none => exact ⟨.nil, .none⟩
  | some he hc _ =>
    have hn₁ := Nat.le_trans hn (he.renumbered parent parent).le
    obtain ⟨hdecorated, hslot⟩ := hc.decorated he (decorating a b (ho _ rfl)) hn hn₁ ha hb
    exact ⟨hdecorated, .some hslot⟩

/-! ## Declarations -/

/-- The node of a variable, once it is known what becomes of its initial value. -/
theorem kept_varDecl {d d' : VarDecl} (hid : d'.id = d.id) (hident : d'.ident = d.ident) (hspan : d'.span = d.span)
    (hglobal : d'.isGlobal = d.isGlobal) (hinit : Option.Rel (Slot a b) (d.init.map Expr.id) (d'.init.map Expr.id))
    (hty : Sized a (d.init.map Expr.id) d.ty d'.ty) :
    Kept a b (.decl d.id ⟨d.kind, d.ident, d.ty, d.span, some parent⟩)
      (.decl d'.id ⟨d'.kind, d'.ident, d'.ty, d'.span, some parent⟩) := by
  have hkind : DeclDecorates a b d.kind d'.kind := by
    unfold VarDecl.kind
    rw [hglobal]
    split
    · exact .globalVar hinit
    · exact .localVar hinit
  have hinit? : d.kind.init? = d.init.map Expr.id := by
    unfold VarDecl.kind
    split <;> rfl
  rw [hid]
  refine .decl ⟨hident, hspan, rfl, hkind, ?_⟩
  rw [hinit?]
  exact hty

theorem ElaboratesInit.decorated {d d' : VarDecl} (h : ElaboratesInit env n d d' n' errors) (hd : d.Plain)
    (hn : a.exprs.size ≤ n) (ha : a.Has (d.entries parent)) (hb : b.Has (d'.entries parent)) :
    Decorated a b (d.entries parent) (d'.entries parent) := by
  rw [VarDecl.entries, has_append] at ha hb
  rw [VarDecl.entries, VarDecl.entries]
  cases h with
  | none hinit _ =>
    rw [hinit]
    refine .keep (kept_varDecl rfl rfl rfl rfl ?_ .same) .nil
    rw [hinit]
    exact .none
  | @value e checked e' n₁ _ _ _ _ hinit _ he hc _ =>
    rw [hinit] at ha ⊢
    have hn₁ := Nat.le_trans hn (he.renumbered parent parent).le
    obtain ⟨hdecorated, hslot⟩ := hc.decorated he (decorating_init a b (hd.init e hinit)) hn hn₁ ha.1 hb.1
    refine hdecorated.snoc (kept_varDecl rfl rfl rfl rfl ?_ .same)
    rw [hinit]
    exact .some hslot
  | @list element size info elements elements' t _ _ _ hty hinit ht helements _ =>
    rw [hinit] at ha ⊢
    have hsource : a.exprKind? info.id = some (.initList (elements.map Expr.id)) := ha.1.expr.1
    refine (decorated_initList t helements (hd.elements hinit) hn ha.1 hb.1 .same).snoc
      (kept_varDecl rfl rfl rfl rfl ?_ ?_)
    · rw [hinit]
      exact .some .same
    · show Sized a (d.init.map Expr.id) d.ty t
      rw [hinit, hty, ht]
      cases size with
      | some size => exact .same
      | none =>
        have hcounted : Sized a (some info.id) (.array element Option.none) _ := .counted rfl hsource
        rwa [List.length_map] at hcounted

theorem ElaboratesVars.decorated {ds ds' : List VarDecl} (h : ElaboratesVars env n ds ds' env' n' errors)
    (hds : ∀ d ∈ ds, d.Plain) (hn : a.exprs.size ≤ n) (ha : a.Has (ds.flatMap (VarDecl.entries parent)))
    (hb : b.Has (ds'.flatMap (VarDecl.entries parent))) :
    Decorated a b (ds.flatMap (VarDecl.entries parent)) (ds'.flatMap (VarDecl.entries parent)) := by
  induction h with
  | nil => exact .nil
  | cons hinit _ ih =>
    rw [List.forall_mem_cons] at hds
    rw [List.flatMap_cons, has_append] at ha hb
    rw [List.flatMap_cons, List.flatMap_cons]
    have hn₁ := Nat.le_trans hn (hinit.renumbered parent parent).le
    exact (hinit.decorated hds.1 hn ha.1 hb.1).append (ih hds.2 hn₁ ha.2 hb.2)

/-! ## Statements -/

theorem kept_stmt {s s' : Stmt} (hid : s'.id = s.id) (hspan : s'.span = s.span)
    (hkind : StmtDecorates a b s.kind s'.kind) : Kept a b (s.entry parent) (s'.entry parent) := by
  rw [Stmt.entry, Stmt.entry, hid]
  exact .stmt ⟨hspan, rfl, hkind⟩

theorem ElaboratesForCondition.decorated {span : Span} {cond : Option Expr} {cond' : Expr}
    (h : ElaboratesForCondition env n span cond cond' n' errors) (hcond : ∀ e ∈ cond, e.Plain)
    (hn : a.exprs.size ≤ n) (ha : a.Has (Expr.entriesOption parent cond)) (hb : b.Has (cond'.entries parent)) :
    Decorated a b (Expr.entriesOption parent cond) (cond'.entries parent) ∧
      ConditionFilled a b (cond.map Expr.id) (some cond'.id) := by
  cases h with
  | omitted =>
    have hnode : b.expr? ⟨n⟩ = some ⟨.literal (.boolean "true"), span, some parent, some .boolean⟩ :=
      hb _ (List.mem_singleton.2 rfl)
    exact ⟨.add (.condition hn) .nil, .filled hnode rfl hn⟩
  | given h _ =>
    refine ⟨decorating a b (hcond _ rfl) h hn ha hb .same, ?_⟩
    rw [h.id]
    exact .same

/-- The check of a statement only decorates it. -/
def DecoratingStmt (a b : Arena) (s : Stmt) : Prop :=
  ∀ ⦃env n s' n' errors parent⦄, ElaboratesStmt env n s s' n' errors → a.exprs.size ≤ n → a.Has (s.entries parent) →
    b.Has (s'.entries parent) → Decorated a b (s.entries parent) (s'.entries parent)

theorem ElaboratesStmts.decorated {ss ss' : List Stmt} (h : ElaboratesStmts env n ss ss' n' errors)
    (hss : ∀ s ∈ ss, DecoratingStmt a b s) (hn : a.exprs.size ≤ n) (ha : a.Has (Stmt.entriesAll parent ss))
    (hb : b.Has (Stmt.entriesAll parent ss')) :
    Decorated a b (Stmt.entriesAll parent ss) (Stmt.entriesAll parent ss') := by
  induction ss generalizing n ss' errors with
  | nil =>
    cases h
    exact .nil
  | cons s ss ih =>
    cases h with
    | cons hs _ hrest =>
      rw [Stmt.entriesAll, has_append] at ha hb
      have hn₁ := Nat.le_trans hn (keepsStmtNumbers s hs parent parent).le
      have hmore := ih hrest (fun s hs => hss s (by simp [hs])) hn₁ ha.2 hb.2
      exact (hss s (by simp) hs hn ha.1 hb.1).append hmore

/-- A statement is only decorated if those under it are. -/
theorem ElaboratesStmt.decorated_of_stmts {s s' : Stmt} (h : ElaboratesStmt env n s s' n' errors) (hs : s.Plain)
    (hdecorates : ∀ t ∈ s.stmts, DecoratingStmt a b t) (hn : a.exprs.size ≤ n) (ha : a.Has (s.entries parent))
    (hb : b.Has (s'.entries parent)) : Decorated a b (s.entries parent) (s'.entries parent) := by
  have hvars := hs.vars
  have hexprs := hs.exprs
  cases h with
  | compound hdecls hstmts =>
    rw [Stmt.entries, has_append, has_append] at ha hb
    rw [Stmt.entries, Stmt.entries]
    have hn₁ := Nat.le_trans hn (hdecls.renumbered parent parent).le
    have hfirst := hdecls.decorated hvars hn ha.1.1 hb.1.1
    have hrest := hstmts.decorated hdecorates hn₁ ha.1.2 hb.1.2
    refine (hfirst.append hrest).snoc (kept_stmt rfl rfl ?_)
    rw [Stmt.kind, Stmt.kind, hdecls.ids, hstmts.ids]
    exact .same
  | ifThen hc _ ht =>
    rw [Stmt.entries, has_append, has_append] at ha hb
    rw [Stmt.entries, Stmt.entries]
    have hn₁ := Nat.le_trans hn (hc.renumbered parent parent).le
    have hcond := decorating a b (hexprs _ (by simp [Stmt.exprs])) hc hn ha.1.1 hb.1.1 .same
    have hthen := hdecorates _ (by simp [Stmt.stmts]) ht hn₁ ha.1.2 hb.1.2
    refine (hcond.append hthen).snoc (kept_stmt rfl rfl ?_)
    rw [Stmt.kind, Stmt.kind, hc.id, ht.id]
    exact .same
  | ifElse hc _ ht he =>
    rw [Stmt.entries, has_append, has_append, has_append] at ha hb
    rw [Stmt.entries, Stmt.entries]
    have hn₁ := Nat.le_trans hn (hc.renumbered parent parent).le
    have hn₂ := Nat.le_trans hn₁ (keepsStmtNumbers _ ht parent parent).le
    have hcond := decorating a b (hexprs _ (by simp [Stmt.exprs])) hc hn ha.1.1.1 hb.1.1.1 .same
    have hthen := hdecorates _ (by simp [Stmt.stmts]) ht hn₁ ha.1.1.2 hb.1.1.2
    have helse := hdecorates _ (by simp [Stmt.stmts]) he hn₂ ha.1.2 hb.1.2
    refine ((hcond.append hthen).append helse).snoc (kept_stmt rfl rfl ?_)
    rw [Stmt.kind, Stmt.kind, hc.id, ht.id, he.id]
    exact .same
  | whileStmt hc _ hbody =>
    rw [Stmt.entries, has_append, has_append] at ha hb
    rw [Stmt.entries, Stmt.entries]
    have hn₁ := Nat.le_trans hn (hc.renumbered parent parent).le
    have hcond := decorating a b (hexprs _ (by simp [Stmt.exprs])) hc hn ha.1.1 hb.1.1 .same
    have hlast := hdecorates _ (by simp [Stmt.stmts]) hbody hn₁ ha.1.2 hb.1.2
    refine (hcond.append hlast).snoc (kept_stmt rfl rfl ?_)
    rw [Stmt.kind, Stmt.kind, hc.id, hbody.id]
    exact .same
  | forStmt hi hc hu hbody =>
    rw [Stmt.entries, has_append, has_append, has_append, has_append] at ha hb
    rw [Stmt.entries, Stmt.entries]
    have hn₁ := Nat.le_trans hn (hi.renumbered parent parent).le
    have hn₂ := Nat.le_trans hn₁ (hc.renumbered parent parent).le
    have hn₃ := Nat.le_trans hn₂ (hu.renumbered parent parent).le
    cases hs with
    | forStmt hinit hcond hupdate _ =>
      obtain ⟨hfirst, hslot⟩ := hi.decorated hinit hn ha.1.1.1.1 hb.1.1.1.1
      obtain ⟨hsecond, hfilled⟩ := hc.decorated hcond hn₁ ha.1.1.1.2 hb.1.1.1.2
      obtain ⟨hthird, hslot'⟩ := hu.decorated hupdate hn₂ ha.1.1.2 hb.1.1.2
      have hlast := hdecorates _ (by simp [Stmt.stmts]) hbody hn₃ ha.1.2 hb.1.2
      refine (((hfirst.append hsecond).append hthird).append hlast).snoc (kept_stmt rfl rfl ?_)
      rw [Stmt.kind, Stmt.kind, hbody.id]
      exact .forStmt hslot hfilled hslot'
  | breakStmt | continueStmt | emptyStmt => exact .keep (kept_stmt rfl rfl .same) .nil
  | returnStmt hv =>
    rw [Stmt.entries, has_append] at ha hb
    rw [Stmt.entries, Stmt.entries]
    obtain ⟨hdecorated, hslot⟩ := hv.decorated (fun e he => hexprs e (Option.mem_toList.2 he)) hn ha.1 hb.1
    exact hdecorated.snoc (kept_stmt rfl rfl (.returnStmt hslot))
  | exprStmt he =>
    rw [Stmt.entries, has_append] at ha hb
    rw [Stmt.entries, Stmt.entries]
    have hexpr := decorating a b (hexprs _ (by simp [Stmt.exprs])) he hn ha.1 hb.1 .same
    refine hexpr.snoc (kept_stmt rfl rfl ?_)
    rw [Stmt.kind, Stmt.kind, he.id]
    exact .same

theorem decoratingStmt (a b : Arena) {s : Stmt} (hs : s.Plain) : DecoratingStmt a b s := by
  induction s using Stmt.induct_stmts with
  | h s ih => exact fun _ _ _ _ _ _ h => h.decorated_of_stmts hs fun t ht => ih t ht (hs.stmts t ht)

/-! ## Programs -/

theorem decorated_params (parent : NodeId) (ps : List Param) :
    Decorated a b (ps.map (Param.entry parent)) (ps.map (Param.entry parent)) := by
  induction ps with
  | nil => exact .nil
  | cons p ps ih => exact .keep (.decl ⟨rfl, rfl, rfl, .param, .same⟩) ih

theorem ElaboratesFunction.decorated {f f' : Function} (h : ElaboratesFunction env n f f' n' errors) (hf : f.Plain)
    (hn : a.exprs.size ≤ n) (ha : a.Has f.entries) (hb : b.Has f'.entries) : Decorated a b f.entries f'.entries := by
  obtain ⟨hdecls, hstmts⟩ := hf.parts
  rw [Function.entries, has_append, has_append, Block.toStmt, Stmt.entries, has_append, has_append] at ha
  cases h with
  | @mk env₁ env₂ decls' stmts' hasReturn n₁ _ _ _ _ _ _ hvars hchecked _ =>
    rw [Function.entries, has_append, has_append, Block.toStmt, Stmt.entries, has_append, has_append] at hb
    rw [Function.entries, Function.entries, Block.toStmt, Block.toStmt, Stmt.entries, Stmt.entries]
    have hn₁ := Nat.le_trans hn (hvars.renumbered .program .program).le
    have hfirst := hvars.decorated hdecls hn ha.1.2.1.1 hb.1.2.1.1
    have hrest := hchecked.decorated (fun s hs => decoratingStmt a b (hstmts s hs)) hn₁ ha.1.2.1.2 hb.1.2.1.2
    have hbody : Kept a b ((Stmt.compound f.body.info f.body.decls f.body.stmts).entry (.decl f.id))
        ((Stmt.compound f.body.info decls' stmts').entry (.decl f.id)) := by
      refine kept_stmt rfl rfl ?_
      rw [Stmt.kind, Stmt.kind, hvars.ids, hchecked.ids]
      exact .same
    exact ((decorated_params _ f.params).append ((hfirst.append hrest).snoc hbody)).snoc
      (.decl ⟨rfl, rfl, rfl, .func, .same⟩)

theorem ElaboratesTops.decorated {ds ds' : List TopDecl} (h : ElaboratesTops env n ds ds' n' errors)
    (hds : ∀ d ∈ ds, d.Plain) (hn : a.exprs.size ≤ n) (ha : a.Has (ds.flatMap TopDecl.entries))
    (hb : b.Has (ds'.flatMap TopDecl.entries)) :
    Decorated a b (ds.flatMap TopDecl.entries) (ds'.flatMap TopDecl.entries) := by
  induction h with
  | nil => exact .nil
  | func hf _ ih =>
    rw [List.forall_mem_cons] at hds
    rw [List.flatMap_cons, has_append] at ha hb
    rw [List.flatMap_cons, List.flatMap_cons]
    have hn₁ := Nat.le_trans hn hf.renumbered.le
    cases hds.1 with
    | func hplain => exact (hf.decorated hplain hn ha.1 hb.1).append (ih hds.2 hn₁ ha.2 hb.2)
  | var hinit _ ih =>
    rw [List.forall_mem_cons] at hds
    rw [List.flatMap_cons, has_append] at ha hb
    rw [List.flatMap_cons, List.flatMap_cons]
    have hn₁ := Nat.le_trans hn (hinit.renumbered .program .program).le
    cases hds.1 with
    | var hplain => exact (hinit.decorated hplain hn ha.1 hb.1).append (ih hds.2 hn₁ ha.2 hb.2)

end Typing

end VCLang
