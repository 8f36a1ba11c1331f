/-
Which statements of a flat form always end in a `return`, read off its nodes alone. Of a statement nothing counts but
how control goes through it: what it runs in order, what it chooses between, whether a loop can end. A check changes
none of this, although it puts conversions in the places of expressions and conditions where none are written.
-/
import VCLang.Flow
import VCLang.Proofs.Arena.Frame
import VCLang.Proofs.Tree.Subtrees
namespace VCLang

/-- How control goes through a statement of a flat form. -/
inductive Course
  | returns
  | breaks
  | block (stmts : List StmtId)
  | branch (thenBranch : StmtId) (elseBranch : Option StmtId)
  | loop (endless : Bool) (body : StmtId)
  | passes
  deriving DecidableEq, Repr

namespace Course

/-- Whether a `break` leaves a statement of this course, if that is known of the statements in it. -/
def Breaks (breaksOut : StmtId → Prop) : Course → Prop
  | breaks => True
  | block stmts => ∃ s ∈ stmts, breaksOut s
  | branch t e => breaksOut t ∨ ∃ s ∈ e, breaksOut s
  | returns | loop _ _ | passes => False

/-- Whether every path through a statement of this course ends in a `return`, if that is known of the statements
in it. -/
def Returns (alwaysReturns breaksOut : StmtId → Prop) : Course → Prop
  | returns => True
  | block stmts => ∃ s ∈ stmts, alwaysReturns s
  | branch t e => alwaysReturns t ∧ ∃ s ∈ e, alwaysReturns s
  | loop endless body => endless = true ∧ ¬ breaksOut body
  | breaks | passes => False

end Course

namespace Arena

variable {a b : Arena} {library : List DeclId} {id : StmtId} {c : Course}

/-! ## The course of a statement -/

/-- Whether an expression of a flat form is the word `true`. -/
def isTrueLiteral (a : Arena) (id : ExprId) : Bool := (a.exprKind? id).any ExprKind.isTrueLiteral

/-- The course of a kind of statement. A loop is endless if its condition is the word `true` or omitted. -/
def courseOf (a : Arena) : StmtKind → Course
  | .returnStmt _ => .returns
  | .breakStmt => .breaks
  | .compound _ stmts => .block stmts
  | .ifStmt _ thenBranch elseBranch => .branch thenBranch elseBranch
  | .whileStmt cond body => .loop (a.isTrueLiteral cond) body
  | .forStmt _ cond _ body => .loop ((cond.map a.isTrueLiteral).getD true) body
  | .continueStmt | .exprStmt _ | .emptyStmt => .passes

def course? (a : Arena) (id : StmtId) : Option Course := (a.stmtKind? id).map a.courseOf

/-- A `break` leaves the loop whose body the statement is. -/
inductive BreaksOut (a : Arena) : StmtId → Prop
  | breaks {id : StmtId} : a.course? id = some .breaks → BreaksOut a id
  | block {id s : StmtId} {stmts : List StmtId} : a.course? id = some (.block stmts) → s ∈ stmts → BreaksOut a s →
    BreaksOut a id
  | thenBranch {id t : StmtId} {e : Option StmtId} : a.course? id = some (.branch t e) → BreaksOut a t → BreaksOut a id
  | elseBranch {id t e : StmtId} : a.course? id = some (.branch t (some e)) → BreaksOut a e → BreaksOut a id

/-- Every path through the statement ends in a `return`. -/
inductive AlwaysReturns (a : Arena) : StmtId → Prop
  | returns {id : StmtId} : a.course? id = some .returns → AlwaysReturns a id
  | block {id s : StmtId} {stmts : List StmtId} : a.course? id = some (.block stmts) → s ∈ stmts → AlwaysReturns a s →
    AlwaysReturns a id
  | branch {id t e : StmtId} : a.course? id = some (.branch t (some e)) → AlwaysReturns a t → AlwaysReturns a e →
    AlwaysReturns a id
  | loop {id body : StmtId} : a.course? id = some (.loop true body) → ¬ a.BreaksOut body → AlwaysReturns a id

/-- Both are decided by the courses. -/
theorem BreaksOut.congr (h : ∀ id, b.course? id = a.course? id) (hbreak : a.BreaksOut id) : b.BreaksOut id := by
  induction hbreak with
  | breaks hc => exact .breaks ((h _).trans hc)
  | block hc hs _ ih => exact .block ((h _).trans hc) hs ih
  | thenBranch hc _ ih => exact .thenBranch ((h _).trans hc) ih
  | elseBranch hc _ ih => exact .elseBranch ((h _).trans hc) ih

theorem AlwaysReturns.congr (h : ∀ id, b.course? id = a.course? id) (hreturns : a.AlwaysReturns id) :
    b.AlwaysReturns id := by
  induction hreturns with
  | returns hc => exact .returns ((h _).trans hc)
  | block hc hs _ ih => exact .block ((h _).trans hc) hs ih
  | branch hc _ _ ihThen ihElse => exact .branch ((h _).trans hc) ihThen ihElse
  | loop hc hbody => exact .loop ((h _).trans hc) fun hbreak => hbody (hbreak.congr fun id => (h id).symm)

/-- A `break` leaves a statement of known course if it leaves one that control goes into. -/
theorem breaksOut_iff (h : a.course? id = some c) : a.BreaksOut id ↔ c.Breaks a.BreaksOut := by
  constructor
  · intro hbreak
    cases hbreak with
    | breaks hc =>
      cases h.symm.trans hc
      trivial
    | block hc hs hbreak =>
      cases h.symm.trans hc
      exact ⟨_, hs, hbreak⟩
    | thenBranch hc hbreak =>
      cases h.symm.trans hc
      exact .inl hbreak
    | elseBranch hc hbreak =>
      cases h.symm.trans hc
      exact .inr ⟨_, rfl, hbreak⟩
  · intro hbreak
    cases c with
    | breaks => exact .breaks h
    | block stmts =>
      obtain ⟨s, hs, hbreak⟩ := hbreak
      exact .block h hs hbreak
    | branch t e =>
      rcases hbreak with hbreak | ⟨e, rfl, hbreak⟩
      · exact .thenBranch h hbreak
      · exact .elseBranch h hbreak
    | _ => exact hbreak.elim

theorem alwaysReturns_iff (h : a.course? id = some c) : a.AlwaysReturns id ↔ c.Returns a.AlwaysReturns a.BreaksOut := by
  constructor
  · intro hreturns
    cases hreturns with
    | returns hc =>
      cases h.symm.trans hc
      trivial
    | block hc hs hreturns =>
      cases h.symm.trans hc
      exact ⟨_, hs, hreturns⟩
    | branch hc hthen helse =>
      cases h.symm.trans hc
      exact ⟨hthen, _, rfl, helse⟩
    | loop hc hbody =>
      cases h.symm.trans hc
      exact ⟨rfl, hbody⟩
  · intro hreturns
    cases c with
    | returns => exact .returns h
    | block stmts =>
      obtain ⟨s, hs, hreturns⟩ := hreturns
      exact .block h hs hreturns
    | branch t e =>
      obtain ⟨hthen, e, rfl, helse⟩ := hreturns
      exact .branch h hthen helse
    | loop endless body =>
      obtain ⟨rfl, hbody⟩ := hreturns
      exact .loop h hbody
    | _ => exact hreturns.elim

/-! ## Behind a check -/

theorem Decorates.isTrueLiteral {k k' : ExprKind} {t : Ty} (h : Decorates a b k k' t) :
    k'.isTrueLiteral = k.isTrueLiteral := by
  cases h <;> rfl

/-- An expression that was there before is the word `true` if it was. -/
theorem Frame.isTrueLiteral (h : Frame a b) {e : ExprId} (he : e.index < a.exprs.size) :
    b.isTrueLiteral e = a.isTrueLiteral e := by
  have hn : a.expr? e = some a.exprs[e.index] := Array.getElem?_eq_getElem he
  obtain ⟨n', hn', hkept⟩ := h.exprs e _ hn
  obtain ⟨t, -, hkind⟩ := hkept.kind
  rw [Arena.isTrueLiteral, Arena.isTrueLiteral, exprKind?, exprKind?, hn, hn']
  exact hkind.isTrueLiteral

/-- A condition of a `for` loop is kept, or `true` is put in where it is omitted: the loop ends as before. -/
theorem Frame.condition (h : Frame a b) {cond cond' : Option ExprId} (hcond : ConditionFilled a b cond cond')
    (hexprs : ∀ e ∈ cond, e.index < a.exprs.size) :
    (cond'.map b.isTrueLiteral).getD true = (cond.map a.isTrueLiteral).getD true := by
  cases hcond with
  | same =>
    cases cond with
    | none => rfl
    | some e => exact h.isTrueLiteral (hexprs e rfl)
  | @filled id n hn hliteral _ =>
    show b.isTrueLiteral id = true
    rw [Arena.isTrueLiteral, exprKind?, hn, Option.map_some, hliteral]
    rfl

/-- What a check does to a statement does not change its course. -/
theorem Frame.courseOf (h : Frame a b) {k k' : StmtKind} (hexprs : ∀ e ∈ k.exprs, e.index < a.exprs.size)
    (hkind : StmtDecorates a b k k') : b.courseOf k' = a.courseOf k := by
  have hfor {init cond update : Option ExprId} {body : StmtId} (hk : k = .forStmt init cond update body) :
      ∀ e ∈ cond, e.index < a.exprs.size := by
    rintro e rfl
    exact hexprs e (by simp [hk, StmtKind.exprs])
  cases hkind with
  | same =>
    cases k with
    | whileStmt cond body =>
      have hcond := h.isTrueLiteral (hexprs cond (by simp [StmtKind.exprs]))
      exact congrArg (Course.loop · body) hcond
    | forStmt init cond update body => exact congrArg (Course.loop · body) (h.condition .same (hfor rfl))
    | _ => rfl
  | @forStmt _ _ cond cond' _ _ body _ hcond _ => exact congrArg (Course.loop · body) (h.condition hcond (hfor rfl))
  | returnStmt => rfl

theorem Frame.course? (h : Frame a b) (ha : a.Linked library) (id : StmtId) : b.course? id = a.course? id := by
  rw [Arena.course?, Arena.course?, stmtKind?, stmtKind?]
  cases hn : a.stmt? id with
  | none =>
    have hle : a.stmts.size ≤ id.index := Array.getElem?_eq_none_iff.1 hn
    rw [← h.no_stmts] at hle
    rw [show b.stmt? id = none from Array.getElem?_eq_none_iff.2 hle]
    rfl
  | some n =>
    obtain ⟨n', hn', hkept⟩ := h.stmts id n hn
    -- a condition that is named was there before, so it is none of those that are put in
    have hexprs : ∀ e ∈ n.kind.exprs, e.index < a.exprs.size := by
      intro e he
      apply ha.contains_child (.stmt id) (.expr e)
      rw [childrenOf, hn]
      simpa using StmtKind.mem_exprs_iff.1 he
    rw [hn']
    exact congrArg some (h.courseOf hexprs hkept.kind)

/-- A check changes nothing in which statements always return. -/
theorem Frame.alwaysReturns_iff (h : Frame a b) (ha : a.Linked library) (id : StmtId) :
    b.AlwaysReturns id ↔ a.AlwaysReturns id :=
  ⟨.congr fun id => (h.course? ha id).symm, .congr (h.course? ha)⟩

/-! ## Trees -/

/-- The course of a statement whose nodes are in the flat form. -/
theorem Has.course? {s : Stmt} {parent : NodeId} (h : a.Has (s.entries parent)) :
    a.course? s.id = some (a.courseOf s.kind) := by
  rw [s.entries_eq, has_append] at h
  have hroot : a.stmt? s.id = some ⟨s.kind, s.span, some parent⟩ := h.2 _ (List.mem_singleton_self _)
  rw [Arena.course?, stmtKind?, hroot]
  rfl

theorem Has.isTrueLiteral {e : Expr} {parent : NodeId} (h : a.Has (e.entries parent)) :
    a.isTrueLiteral e.id = e.isTrueLiteral := by
  rw [e.entries_eq, has_append] at h
  have hroot : a.expr? e.id = some (e.node parent) := h.2 _ (List.mem_singleton_self _)
  rw [Arena.isTrueLiteral, exprKind?, hroot]
  rfl

/-- One of the statements in a list has what the flat form says of numbers if a tree has it. -/
theorem exists_id_iff {P : StmtId → Prop} {f : Stmt → Bool} {ss : List Stmt} (h : ∀ s ∈ ss, P s.id ↔ f s = true) :
    (∃ id ∈ ss.map Stmt.id, P id) ↔ ss.any f = true := by
  rw [List.any_eq_true]
  constructor
  · rintro ⟨_, hid, hP⟩
    obtain ⟨s, hs, rfl⟩ := List.mem_map.1 hid
    exact ⟨s, hs, (h s hs).1 hP⟩
  · rintro ⟨s, hs, hf⟩
    exact ⟨s.id, List.mem_map_of_mem hs, (h s hs).2 hf⟩

/-- The analysis of a tree says of its root what that of the flat form says of the node. -/
theorem Has.breaksOut_iff {s : Stmt} {parent : NodeId} (h : a.Has (s.entries parent)) :
    a.BreaksOut s.id ↔ s.breaksOut = true := by
  induction s using Stmt.induct generalizing parent with
  | compound info decls stmts ih =>
    obtain ⟨-, -, hparts⟩ := held_stmt h
    rw [Arena.breaksOut_iff h.course?, Stmt.breaksOut, Stmt.anyBreaksOut_eq]
    exact exists_id_iff fun s hs => ih s hs (hparts s hs)
  | ifThen info cond thenBranch ih =>
    obtain ⟨-, -, hparts⟩ := held_stmt h
    rw [Arena.breaksOut_iff h.course?, Stmt.breaksOut, ← ih (hparts thenBranch (by simp [Stmt.stmts]))]
    simp [Arena.courseOf, Stmt.kind, Course.Breaks]
  | ifElse info cond thenBranch elseBranch ihThen ihElse =>
    obtain ⟨-, -, hparts⟩ := held_stmt h
    have hthen := ihThen (hparts thenBranch (by simp [Stmt.stmts]))
    have helse := ihElse (hparts elseBranch (by simp [Stmt.stmts]))
    rw [Arena.breaksOut_iff h.course?, Stmt.breaksOut, Bool.or_eq_true, ← hthen, ← helse]
    simp [Arena.courseOf, Stmt.kind, Course.Breaks]
  | _ =>
    rw [Arena.breaksOut_iff h.course?]
    simp [Arena.courseOf, Stmt.kind, Course.Breaks, Stmt.breaksOut]

theorem returns_loop {endless : Bool} {body : Stmt} (h : a.BreaksOut body.id ↔ body.breaksOut = true) :
    (Course.loop endless body.id).Returns a.AlwaysReturns a.BreaksOut ↔ (endless && !body.breaksOut) = true := by
  rw [Course.Returns, h, Bool.and_eq_true, Bool.not_eq_true', Bool.not_eq_true]

theorem Has.alwaysReturns_iff {s : Stmt} {parent : NodeId} (h : a.Has (s.entries parent)) :
    a.AlwaysReturns s.id ↔ s.alwaysReturns = true := by
  induction s using Stmt.induct generalizing parent with
  | compound info decls stmts ih =>
    obtain ⟨-, -, hparts⟩ := held_stmt h
    rw [Arena.alwaysReturns_iff h.course?, Stmt.alwaysReturns, Stmt.anyAlwaysReturns_eq]
    exact exists_id_iff fun s hs => ih s hs (hparts s hs)
  | ifElse info cond thenBranch elseBranch ihThen ihElse =>
    obtain ⟨-, -, hparts⟩ := held_stmt h
    have hthen := ihThen (hparts thenBranch (by simp [Stmt.stmts]))
    have helse := ihElse (hparts elseBranch (by simp [Stmt.stmts]))
    rw [Arena.alwaysReturns_iff h.course?, Stmt.alwaysReturns, Bool.and_eq_true, ← hthen, ← helse]
    simp [Arena.courseOf, Stmt.kind, Course.Returns]
  | whileStmt info cond body ih =>
    obtain ⟨-, hexprs, hparts⟩ := held_stmt h
    have hcond := (hexprs cond (by simp [Stmt.exprs])).isTrueLiteral
    rw [Arena.alwaysReturns_iff h.course?, Stmt.alwaysReturns, ← hcond]
    exact returns_loop (hparts body (by simp [Stmt.stmts])).breaksOut_iff
  | forStmt info init cond update body ih =>
    obtain ⟨-, hexprs, hparts⟩ := held_stmt h
    have hcond : ((cond.map Expr.id).map a.isTrueLiteral).getD true = (cond.map Expr.isTrueLiteral).getD true := by
      cases cond with
      | none => rfl
      | some e => exact (hexprs e (by simp [Stmt.exprs])).isTrueLiteral
    rw [Arena.alwaysReturns_iff h.course?, Stmt.alwaysReturns, ← hcond]
    exact returns_loop (hparts body (by simp [Stmt.stmts])).breaksOut_iff
  | _ =>
    rw [Arena.alwaysReturns_iff h.course?]
    simp [Arena.courseOf, Stmt.kind, Course.Returns, Stmt.alwaysReturns]

end Arena

end VCLang
