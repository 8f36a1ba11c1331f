/-
Erasing what a check has added to a flat form. Beside the flat form itself this takes how many expressions and
declarations there were before, and which arrays were declared without a size.
-/
import VCLang.Proofs.Arena.Frame
namespace VCLang

/-! ## Nodes -/

/-- An occurrence of a name without what it is bound to. -/
def Ident.unbind (i : Ident) : Ident := { i with decl := none }

/-- An operator without its tag, the first character of its spelling. -/
def Operator.untag (op : Operator) : Operator := { op with spelling := .ofList (op.spelling.toList.drop 1) }

/-- An array type without its size. -/
def Ty.withoutSize : Ty → Ty
  | array element _ => .array element none
  | t => t

/-- Whether a type is one of arrays without a size. -/
def Ty.lacksSize : Ty → Bool
  | array _ none => true
  | _ => false

/-- A kind of expression with other parts, whose name is unbound and, if it has a tag, whose operator is untagged. -/
def ExprKind.erase (part : ExprId → ExprId) (isTagged : Bool) : ExprKind → ExprKind
  | binary op left right => binary (if isTagged then op.untag else op) (part left) (part right)
  | unary op operand => unary (if isTagged then op.untag else op) (part operand)
  | assign target value => assign (part target) (part value)
  | var ident => var ident.unbind
  | arrayAccess ident index => arrayAccess ident.unbind (part index)
  | call ident args => call ident.unbind (args.map part)
  | initList elements => initList (elements.map part)
  | literal value => literal value
  | intToFloat operand => intToFloat (part operand)

/-- A kind of statement with other parts, and without a condition that is none to keep. -/
def StmtKind.erase (part : ExprId → ExprId) (isOld : ExprId → Bool) : StmtKind → StmtKind
  | ifStmt cond thenBranch elseBranch => ifStmt (part cond) thenBranch elseBranch
  | whileStmt cond body => whileStmt (part cond) body
  | forStmt init cond update body => forStmt (init.map part) ((cond.filter isOld).map part) (update.map part) body
  | returnStmt value => returnStmt (value.map part)
  | exprStmt expr => exprStmt (part expr)
  | k => k

/-- A kind of declaration with another initial value, of which it is not known whether it returns. -/
def DeclKind.erase (part : ExprId → ExprId) : DeclKind → DeclKind
  | func params body _ => func params body false
  | globalVar init => globalVar (init.map part)
  | localVar init => localVar (init.map part)
  | param => param

namespace Arena

/-- The expression that stood in a place among the first `n`: the operand of a conversion that is not. -/
def partBefore (b : Arena) (n : Nat) (id : ExprId) : ExprId :=
  if id.index < n then id
  else match b.exprKind? id with
    | some (.intToFloat operand) => operand
    | _ => id

/-- What an expression was part of among the first `n`. -/
def parentBefore (b : Arena) (n : Nat) : Option NodeId → Option NodeId
  | some (.expr id) => if id.index < n then some (.expr id) else b.parentOf (.expr id)
  | parent => parent

def eraseExpr (b : Arena) (n : Nat) (node : ExprNode) : ExprNode :=
  ⟨node.kind.erase (b.partBefore n) (!node.type.isError), node.span, b.parentBefore n node.parent, none⟩

def eraseStmt (b : Arena) (n : Nat) (node : StmtNode) : StmtNode :=
  { node with kind := node.kind.erase (b.partBefore n) (·.index < n) }

def eraseDecl (b : Arena) (n : Nat) (isUnsized : Bool) (node : DeclNode) : DeclNode :=
  { node with kind := node.kind.erase (b.partBefore n), ty := if isUnsized then node.ty.withoutSize else node.ty }

/-- A flat form without what a check has added to one with some numbers of expressions and declarations. -/
def erase (b : Arena) (exprs decls : Nat) (isUnsized : DeclId → Bool) : Arena where
  exprs := (b.exprs.take exprs).map (b.eraseExpr exprs)
  stmts := b.stmts.map (b.eraseStmt exprs)
  decls := (b.decls.take decls).mapIdx fun i node => b.eraseDecl exprs (isUnsized ⟨i⟩) node
  program := b.program
  span := b.span

/-- Whether a declaration is of an array without a size. -/
def isUnsized (a : Arena) (d : DeclId) : Bool := (a.decl? d).any fun n => n.ty.lacksSize

/-! ## What is left -/

variable {a b : Arena}

theorem Slot.partBefore {id id' : ExprId} (h : Slot a b id id') (hid : id.index < a.exprs.size) :
    b.partBefore a.exprs.size id' = id := by
  unfold Arena.partBefore
  cases h with
  | same => rw [if_pos hid]
  | converted hn hkind hle =>
    rw [if_neg (Nat.not_lt.2 hle), exprKind?, hn, Option.map_some, hkind]

theorem ParentSlot.parentBefore {id : ExprId} {parent parent' : Option NodeId} (h : ParentSlot a b id parent parent')
    (hparent : ∀ q, parent = some (.expr q) → q.index < a.exprs.size) :
    b.parentBefore a.exprs.size parent' = parent := by
  cases h with
  | same =>
    unfold Arena.parentBefore
    split
    · rename_i q
      rw [if_pos (hparent q rfl)]
    · rfl
  | converted hn _ hp hle =>
    show (if _ then _ else b.parentOf _) = parent
    rw [if_neg (Nat.not_lt.2 hle), parentOf, hn]
    exact hp

theorem isError_eq_false {t : Ty} (h : t ≠ .error) : t.isError = false := by
  cases t <;> first
    | rfl
    | exact absurd rfl h

theorem untag_tagged (op : Operator) (tag : OperandTag) : (op.tagged tag).untag = op := by
  rcases op with ⟨spelling, span⟩
  cases tag <;> simp [Operator.untag, Operator.tagged, OperandTag.text]

theorem SameOccurrence.unbind {i i' : Ident} (h : SameOccurrence i i') (hi : i.decl = none) : i'.unbind = i := by
  rcases i with ⟨_, _, _⟩
  obtain ⟨rfl, rfl⟩ := h
  subst hi
  rfl

theorem map_partBefore {ids ids' : List ExprId} (h : List.Forall₂ (Slot a b) ids ids')
    (hids : ∀ id ∈ ids, id.index < a.exprs.size) : ids'.map (b.partBefore a.exprs.size) = ids := by
  induction h with
  | nil => rfl
  | cons hslot _ ih =>
    rw [List.forall_mem_cons] at hids
    rw [List.map_cons, hslot.partBefore hids.1, ih hids.2]

theorem optionMap_partBefore {id id' : Option ExprId} (h : Option.Rel (Slot a b) id id')
    (hid : ∀ e ∈ id, e.index < a.exprs.size) : id'.map (b.partBefore a.exprs.size) = id := by
  cases h with
  | none => rfl
  | some hslot => rw [Option.map_some, hslot.partBefore (hid _ rfl)]

theorem Decorates.erase {k k' : ExprKind} {t : Ty} (h : Decorates a b k k' t) (hident : ∀ i ∈ k.ident?, i.decl = none)
    (hparts : ∀ c ∈ k.children, c.index < a.exprs.size) :
    k'.erase (b.partBefore a.exprs.size) (!t.isError) = k := by
  have hsame {id : ExprId} (hid : id ∈ k.children) : b.partBefore a.exprs.size id = id :=
    Slot.partBefore (a := a) .same (hparts id hid)
  cases h with
  | literal => rfl
  | var huse => rw [ExprKind.erase, huse.unbind (hident _ rfl)]
  | arrayAccess huse => rw [ExprKind.erase, huse.unbind (hident _ rfl), hsame (by simp [ExprKind.children])]
  | call huse hslots => rw [ExprKind.erase, huse.unbind (hident _ rfl), map_partBefore hslots hparts]
  | initList hslots => rw [ExprKind.erase, map_partBefore hslots hparts]
  | unary htagged _ =>
    rw [isError_eq_false (TagFits.of_unary htagged).1, ExprKind.erase, hsame (by simp [ExprKind.children])]
    simp [untag_tagged]
  | unaryError =>
    rw [ExprKind.erase, hsame (by simp [ExprKind.children])]
    rfl
  | binary htagged hleft hright _ _ =>
    rw [isError_eq_false (TagFits.of_binary htagged).1, ExprKind.erase,
      hleft.partBefore (hparts _ (by simp [ExprKind.children])),
      hright.partBefore (hparts _ (by simp [ExprKind.children]))]
    simp [untag_tagged]
  | binaryError =>
    rw [ExprKind.erase, hsame (by simp [ExprKind.children]), hsame (by simp [ExprKind.children])]
    rfl
  | assign hvalue _ _ =>
    rw [ExprKind.erase, hsame (by simp [ExprKind.children]), hvalue.partBefore (hparts _ (by simp [ExprKind.children]))]
  | assignError => rw [ExprKind.erase, hsame (by simp [ExprKind.children]), hsame (by simp [ExprKind.children])]

theorem slot_refl (id : Option ExprId) : Option.Rel (Slot a b) id id := by
  cases id with
  | none => exact .none
  | some id => exact .some .same

theorem ConditionFilled.erase {cond cond' : Option ExprId} (h : ConditionFilled a b cond cond')
    (hcond : ∀ e ∈ cond, e.index < a.exprs.size) :
    (cond'.filter (·.index < a.exprs.size)).map (b.partBefore a.exprs.size) = cond := by
  cases h with
  | same =>
    have hfilter : cond.filter (·.index < a.exprs.size) = cond := by
      cases cond with
      | none => rfl
      | some e => simp [Option.filter, hcond e rfl]
    rw [hfilter, optionMap_partBefore (slot_refl cond) hcond]
  | filled _ _ hle => simp [Option.filter, Nat.not_lt.2 hle]

theorem erase_forStmt {init init' cond cond' update update' : Option ExprId} {body : StmtId}
    (hinit : Option.Rel (Slot a b) init init') (hcond : ConditionFilled a b cond cond')
    (hupdate : Option.Rel (Slot a b) update update')
    (hparts : ∀ c ∈ (StmtKind.forStmt init cond update body).exprs, c.index < a.exprs.size) :
    (StmtKind.forStmt init' cond' update' body).erase (b.partBefore a.exprs.size) (·.index < a.exprs.size) =
      .forStmt init cond update body := by
  simp only [StmtKind.exprs, List.forall_mem_append, Option.mem_toList] at hparts
  obtain ⟨⟨hinit', hcond'⟩, hupdate'⟩ := hparts
  rw [StmtKind.erase, optionMap_partBefore hinit hinit', hcond.erase hcond', optionMap_partBefore hupdate hupdate']

theorem StmtDecorates.erase {k k' : StmtKind} (h : StmtDecorates a b k k')
    (hparts : ∀ c ∈ k.exprs, c.index < a.exprs.size) :
    k'.erase (b.partBefore a.exprs.size) (·.index < a.exprs.size) = k := by
  have hsame {id : ExprId} (hid : id ∈ k.exprs) : b.partBefore a.exprs.size id = id :=
    Slot.partBefore (a := a) .same (hparts id hid)
  have hvalue {value value' : Option ExprId} (hvalue : Option.Rel (Slot a b) value value')
      (hparts : ∀ c ∈ (StmtKind.returnStmt value).exprs, c.index < a.exprs.size) :
      (StmtKind.returnStmt value').erase (b.partBefore a.exprs.size) (·.index < a.exprs.size) = .returnStmt value := by
    rw [StmtKind.erase, optionMap_partBefore hvalue (by simpa [StmtKind.exprs] using hparts)]
  cases h with
  | same =>
    cases k with
    | ifStmt => rw [StmtKind.erase, hsame (by simp [StmtKind.exprs])]
    | whileStmt => rw [StmtKind.erase, hsame (by simp [StmtKind.exprs])]
    | forStmt => exact erase_forStmt (slot_refl _) .same (slot_refl _) hparts
    | returnStmt => exact hvalue (slot_refl _) hparts
    | exprStmt => rw [StmtKind.erase, hsame (by simp [StmtKind.exprs])]
    | compound => rfl
    | breakStmt => rfl
    | continueStmt => rfl
    | emptyStmt => rfl
  | forStmt hinit hcond hupdate => exact erase_forStmt hinit hcond hupdate hparts
  | returnStmt hslot => exact hvalue hslot hparts

theorem DeclDecorates.erase {k k' : DeclKind} (h : DeclDecorates a b k k') (hreturn : k.hasReturn = false)
    (hparts : ∀ e ∈ k.init?, e.index < a.exprs.size) : k'.erase (b.partBefore a.exprs.size) = k := by
  cases h with
  | func =>
    cases hreturn
    rfl
  | globalVar hinit => rw [DeclKind.erase, optionMap_partBefore hinit hparts]
  | localVar hinit => rw [DeclKind.erase, optionMap_partBefore hinit hparts]
  | param => rfl

theorem Sized.erase {init : Option ExprId} {t t' : Ty} (h : Sized a init t t') :
    (if t.lacksSize then t'.withoutSize else t') = t := by
  cases h with
  | same =>
    split_ifs with hsize
    · unfold Ty.lacksSize at hsize
      split at hsize
      · rfl
      · cases hsize
    · rfl
  | counted => rfl

theorem getElem?_take_of_lt {α : Type} {xs : Array α} {i n : Nat} (hi : i < n) : (xs.take n)[i]? = xs[i]? := by
  rw [Array.take_eq_extract, Array.getElem?_extract, Nat.zero_add, Nat.sub_zero]
  split_ifs with hlt
  · rfl
  · rw [eq_comm, Array.getElem?_eq_none_iff]
    omega

theorem ExprKept.erase {library : List DeclId} {id : ExprId} {n n' : ExprNode} (h : ExprKept a b id n n')
    (ha : a.Linked library) (hn : a.expr? id = some n) (hfresh : (Entry.expr id n).Fresh) :
    b.eraseExpr a.exprs.size n' = n := by
  rcases n with ⟨kind, span, parent, ty⟩
  obtain ⟨hspan, hparent, t, ht, hkind⟩ := h
  obtain ⟨rfl, hident⟩ := hfresh
  have htype : n'.type = t := by rw [ExprNode.type, ht, Option.getD_some]
  have hparts : ∀ c ∈ kind.children, c.index < a.exprs.size := by
    intro c hc
    refine ha.contains_child (.expr id) (.expr c) ?_
    rw [childrenOf, hn]
    simpa using hc
  have hlink : ∀ q, parent = some (.expr q) → q.index < a.exprs.size := by
    rintro q rfl
    refine ha.contains_parent (.expr id) (.expr q) ?_
    rw [parentOf, hn]
    rfl
  rw [eraseExpr, htype, hkind.erase hident hparts, hspan, hparent.parentBefore hlink]

theorem StmtKept.erase {library : List DeclId} {id : StmtId} {n n' : StmtNode} (h : StmtKept a b n n')
    (ha : a.Linked library) (hn : a.stmt? id = some n) : b.eraseStmt a.exprs.size n' = n := by
  rcases n with ⟨kind, span, parent⟩
  obtain ⟨rfl, rfl, hkind⟩ := h
  have hparts : ∀ c ∈ kind.exprs, c.index < a.exprs.size := by
    intro c hc
    refine ha.contains_child (.stmt id) (.expr c) ?_
    rw [childrenOf, hn]
    simpa using StmtKind.mem_exprs_iff.1 hc
  rw [eraseStmt, hkind.erase hparts]

theorem DeclKept.erase {library : List DeclId} {id : DeclId} {n n' : DeclNode} (h : DeclKept a b n n')
    (ha : a.Linked library) (hn : a.decl? id = some n) (hfresh : (Entry.decl id n).Fresh) :
    b.eraseDecl a.exprs.size (a.isUnsized id) n' = n := by
  rcases n with ⟨kind, ident, ty, span, parent⟩
  obtain ⟨rfl, rfl, rfl, hkind, hty⟩ := h
  have hparts : ∀ e ∈ kind.init?, e.index < a.exprs.size := by
    intro e he
    refine ha.contains_child (.decl id) (.expr e) ?_
    rw [childrenOf, hn]
    simpa using DeclKind.init?_eq_some_iff.1 he
  have hunsized : a.isUnsized id = ty.lacksSize := by rw [isUnsized, hn, Option.any_some]
  rw [eraseDecl, hkind.erase hfresh.2 hparts, hunsized, hty.erase]

/-- What a check has added can be erased again. -/
theorem Frame.erase {library : List DeclId} (h : Frame a b) (ha : a.Linked library)
    (hfresh : ∀ x, a.Holds x → x.Fresh) :
    b.erase a.exprs.size a.decls.size a.isUnsized = a := by
  have hexprs : (b.exprs.take a.exprs.size).map (b.eraseExpr a.exprs.size) = a.exprs := by
    refine eq_of_getElem? (by rw [Array.size_map, Array.take_eq_extract, Array.size_extract]; omega) fun i n hn => ?_
    obtain ⟨n', hn', hkept⟩ := h.exprs ⟨i⟩ n hn
    have hi : i < a.exprs.size := (Array.getElem?_eq_some_iff.1 hn).1
    change b.exprs[i]? = some n' at hn'
    rw [Array.getElem?_map, getElem?_take_of_lt hi, hn', Option.map_some, hkept.erase ha hn (hfresh (.expr ⟨i⟩ n) hn)]
  have hstmts : b.stmts.map (b.eraseStmt a.exprs.size) = a.stmts := by
    refine eq_of_getElem? (by simp [h.no_stmts]) fun i n hn => ?_
    obtain ⟨n', hn', hkept⟩ := h.stmts ⟨i⟩ n hn
    change b.stmts[i]? = some n' at hn'
    rw [Array.getElem?_map, hn', Option.map_some, hkept.erase ha hn]
  have hdecls : ((b.decls.take a.decls.size).mapIdx fun i n =>
      b.eraseDecl a.exprs.size (a.isUnsized ⟨i⟩) n) = a.decls := by
    refine eq_of_getElem? (by rw [Array.size_mapIdx, Array.take_eq_extract, Array.size_extract]; omega) fun i n hn => ?_
    obtain ⟨n', hn', hkept⟩ := h.decls ⟨i⟩ n hn
    have hi : i < a.decls.size := (Array.getElem?_eq_some_iff.1 hn).1
    change b.decls[i]? = some n' at hn'
    rw [Array.getElem?_mapIdx, getElem?_take_of_lt hi, hn', Option.map_some,
      hkept.erase ha hn (hfresh (.decl ⟨i⟩ n) hn)]
  rw [Arena.erase, hexprs, hstmts, hdecls, h.program, h.span]

end Arena

end VCLang
