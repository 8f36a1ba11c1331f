/-
What a parse builds: a source tree, whose nodes are fresh and have the numbers that were free, in the order in
which they are listed. Every step of a parse makes a tree of its own and lays it right behind what is there.
-/
import VCLang.Grammar.Program
import VCLang.Proofs.Tree.Numbering
import VCLang.Proofs.Tree.Source
namespace VCLang

namespace Parse

variable {α β : Type} {p q : Parser}

/-- A step ends with a value. -/
def Yields (m : Parse α) (p : Parser) (a : α) (q : Parser) : Prop := m p = (.ok a, q)

@[simp] theorem yields_pure {a b : α} : (pure a : Parse α).Yields p b q ↔ b = a ∧ q = p := by
  unfold Yields
  rw [pure_apply, Prod.mk.injEq, Except.ok.injEq, eq_comm, @eq_comm _ p]

@[simp] theorem yields_bind {m : Parse α} {f : α → Parse β} {b : β} :
    (m >>= f).Yields p b q ↔ ∃ a r, m.Yields p a r ∧ (f a).Yields r b q := by
  constructor
  · exact of_bind_ok
  · rintro ⟨a, r, hm, hf⟩
    exact (bind_ok hm).trans hf

/-- A choice in front of the rest of a sequence. -/
theorem yields_ite_bind {c : Prop} [Decidable c] {m m' : Parse α} {f : α → Parse β} {b : β} :
    (if c then m >>= f else m' >>= f).Yields p b q ↔
      ∃ a r, (if c then m else m').Yields p a r ∧ (f a).Yields r b q := by
  split_ifs <;> exact yields_bind

@[simp] theorem yields_map {m : Parse α} {f : α → β} {b : β} :
    (f <$> m).Yields p b q ↔ ∃ a, m.Yields p a q ∧ b = f a := by
  change (m >>= fun a => pure (f a)).Yields p b q ↔ _
  simp only [yields_bind, yields_pure]
  constructor
  · rintro ⟨a, r, hm, rfl, rfl⟩
    exact ⟨a, hm, rfl⟩
  · rintro ⟨a, hm, rfl⟩
    exact ⟨a, q, hm, rfl, rfl⟩

@[simp] theorem yields_kind {k : TokenKind} : kind.Yields p k q ↔ k = p.current.kind ∧ q = p := by
  unfold Yields kind
  rw [Prod.mk.injEq, Except.ok.injEq, eq_comm, @eq_comm _ p]

@[simp] theorem yields_current {t : Token} : current.Yields p t q ↔ t = p.current ∧ q = p := by
  unfold Yields current
  rw [Prod.mk.injEq, Except.ok.injEq, eq_comm, @eq_comm _ p]

@[simp] theorem yields_start {s : Position} : start.Yields p s q ↔ s = p.current.span.start ∧ q = p := by
  unfold Yields start
  rw [Prod.mk.injEq, Except.ok.injEq, eq_comm, @eq_comm _ p]

@[simp] theorem yields_spanFrom {s : Position} {span : Span} :
    (spanFrom s).Yields p span q ↔ span = p.spanFrom s ∧ q = p := by
  unfold Yields spanFrom
  rw [Prod.mk.injEq, Except.ok.injEq, eq_comm, @eq_comm _ p]

@[simp] theorem not_yields_fail {f : Fault} {a : α} : ¬ (fail f).Yields p a q := by
  intro h
  cases h

@[simp] theorem not_yields_illegalPrimary {a : α} : ¬ (illegalPrimary : Parse α).Yields p a q := by
  intro h
  cases h

theorem arena_advance (p : Parser) : p.advance.arena = p.arena := by
  unfold Parser.advance
  split <;> rfl

theorem yields_advance {t : Token} : advance.Yields p t q ↔ t = p.current ∧ q = p.advance := by
  unfold Yields advance
  rw [Prod.mk.injEq, Except.ok.injEq, eq_comm, @eq_comm _ p.advance]

/-- Moving past tokens adds no nodes. -/
theorem Yields.arena_advance {t : Token} (h : advance.Yields p t q) : q.arena = p.arena := by
  obtain ⟨-, rfl⟩ := yields_advance.1 h
  exact Parse.arena_advance p

theorem Yields.arena_expect {k : TokenKind} {t : Token} (h : (expect k).Yields p t q) : q.arena = p.arena := by
  unfold expect at h
  simp only [yields_bind, yields_kind] at h
  obtain ⟨_, _, ⟨rfl, rfl⟩, h⟩ := h
  split_ifs at h
  · exact h.arena_advance
  · exact absurd h not_yields_fail

theorem Yields.arena_expectIdent {i : Ident} (h : expectIdent.Yields p i q) : q.arena = p.arena := by
  unfold expectIdent at h
  simp only [yields_bind, yields_kind] at h
  obtain ⟨_, _, ⟨rfl, rfl⟩, h⟩ := h
  split_ifs at h
  · simp only [yields_bind, yields_pure] at h
    obtain ⟨t, r, ht, -, rfl⟩ := h
    exact ht.arena_advance
  · exact absurd h not_yields_fail

/-- A name that is read is bound to nothing. -/
theorem Yields.unbound {i : Ident} (h : expectIdent.Yields p i q) : i.decl = none := by
  unfold expectIdent at h
  simp only [yields_bind, yields_kind] at h
  obtain ⟨_, _, ⟨rfl, rfl⟩, h⟩ := h
  split_ifs at h
  · simp only [yields_bind, yields_pure] at h
    obtain ⟨t, r, -, rfl, -⟩ := h
    rfl
  · exact absurd h not_yields_fail

/-! ## Steps that make trees -/

/-- A step makes a tree and lays its nodes right behind those that are there. -/
def Makes (m : Parse α) (ok : α → Prop) (entries : NodeId → α → List Entry) : Prop :=
  ∀ ⦃p a q⦄, m.Yields p a q → ok a ∧ ∀ parent, Laid p.arena q.arena (entries parent a)

variable {ok : α → Prop} {entries : NodeId → α → List Entry} {m : Parse α}

theorem Makes.of_arena {r : Parser} {a : α} (h : Makes m ok entries) (hr : r.arena = p.arena)
    (hy : m.Yields r a q) : ok a ∧ ∀ parent, Laid p.arena q.arena (entries parent a) := by
  rw [← hr]
  exact h hy

theorem Makes.manyUpTo {test : TokenKind → Bool} (h : Makes m ok entries) (n : Nat) :
    Makes (manyUpTo test m n) (fun as => ∀ a ∈ as, ok a) fun parent as => as.flatMap (entries parent) := by
  induction n with
  | zero =>
    intro p as q hy
    obtain ⟨rfl, rfl⟩ := yields_pure.1 hy
    exact ⟨by simp, fun _ => .nil _⟩
  | succ n ih =>
    intro p as q hy
    unfold Parse.manyUpTo at hy
    simp only [yields_bind, yields_kind] at hy
    obtain ⟨_, _, ⟨rfl, rfl⟩, hy⟩ := hy
    split_ifs at hy
    · simp only [yields_bind, yields_pure] at hy
      obtain ⟨a, r, ha, as, _, has, rfl, rfl⟩ := hy
      obtain ⟨hok, hlaid⟩ := h ha
      obtain ⟨hoks, hlaids⟩ := ih has
      exact ⟨by simpa using ⟨hok, hoks⟩, fun parent => (hlaid parent).append (hlaids parent)⟩
    · obtain ⟨rfl, rfl⟩ := yields_pure.1 hy
      exact ⟨by simp, fun _ => .nil _⟩

theorem Makes.many {test : TokenKind → Bool} (h : Makes m ok entries) :
    Makes (many test m) (fun as => ∀ a ∈ as, ok a) fun parent as => as.flatMap (entries parent) :=
  fun _ _ _ hy => h.manyUpTo _ hy

theorem Makes.commaList (h : Makes m ok entries) :
    Makes (commaList m) (fun as => ∀ a ∈ as, ok a) fun parent as => as.flatMap (entries parent) := by
  intro p as q hy
  unfold Parse.commaList at hy
  simp only [yields_bind, yields_pure] at hy
  obtain ⟨a, r, ha, as, _, has, rfl, rfl⟩ := hy
  have hrest : Makes (do let _ ← advance; m) ok entries := by
    intro p a q hy
    simp only [yields_bind] at hy
    obtain ⟨t, r, ht, hy⟩ := hy
    exact h.of_arena ht.arena_advance hy
  obtain ⟨hok, hlaid⟩ := h ha
  obtain ⟨hoks, hlaids⟩ := hrest.many has
  exact ⟨by simpa using ⟨hok, hoks⟩, fun parent => (hlaid parent).append (hlaids parent)⟩

theorem Makes.parenthesised (h : Makes m ok entries) :
    Makes (parenthesised m) (fun as => ∀ a ∈ as, ok a) fun parent as => as.flatMap (entries parent) := by
  intro p as q hy
  unfold Parse.parenthesised at hy
  simp only [yields_bind, yields_kind] at hy
  obtain ⟨t, r, ht, _, _, ⟨rfl, rfl⟩, hy⟩ := hy
  split_ifs at hy
  · simp only [yields_bind, yields_pure] at hy
    obtain ⟨_, _, ⟨rfl, rfl⟩, t', r', ht', rfl, rfl⟩ := hy
    rw [ht'.arena_expect, ht.arena_expect]
    exact ⟨by simp, fun _ => .nil _⟩
  · simp only [yields_bind, yields_pure] at hy
    obtain ⟨as, r', has, t', r'', ht', rfl, rfl⟩ := hy
    rw [ht'.arena_expect]
    exact h.commaList.of_arena ht.arena_expect has

/-! ## Nodes -/

theorem Yields.newExpr {build : ExprInfo → Expr} {span : Span} {e : Expr} (h : (newExpr build span).Yields p e q)
    (hbuild : ∀ info, (build info).info = info ∧ ∀ i ∈ (build info).kind.ident?, i.decl = none) :
    (∃ info, e = build info) ∧ ∀ parent, Laid p.arena q.arena [e.entry parent] := by
  cases h
  refine ⟨⟨_, rfl⟩, ?_⟩
  intro parent
  obtain ⟨hinfo, hident⟩ := hbuild ⟨⟨p.arena.exprs.size⟩, span, none⟩
  have hnode : (build ⟨⟨p.arena.exprs.size⟩, span, none⟩).entry parent =
      .expr ⟨p.arena.exprs.size⟩ ⟨(build ⟨⟨p.arena.exprs.size⟩, span, none⟩).kind, span, some parent, none⟩ := by
    rw [Expr.entry, Expr.node, Expr.id, Expr.span, hinfo]
  rw [hnode]
  exact laid_pushExpr _ _ _ hident

theorem Yields.newStmt {build : StmtInfo → Stmt} {span : Span} {s : Stmt} (h : (newStmt build span).Yields p s q)
    (hbuild : ∀ info, (build info).info = info) :
    (∃ info, s = build info) ∧ ∀ parent, Laid p.arena q.arena [s.entry parent] := by
  cases h
  refine ⟨⟨_, rfl⟩, ?_⟩
  intro parent
  have hnode : (build ⟨⟨p.arena.stmts.size⟩, span⟩).entry parent =
      .stmt ⟨p.arena.stmts.size⟩ ⟨(build ⟨⟨p.arena.stmts.size⟩, span⟩).kind, span, some parent⟩ := by
    rw [Stmt.entry, Stmt.id, Stmt.span, hbuild]
  rw [hnode]
  exact laid_pushStmt ..

theorem Yields.newDecl {kind : DeclKind} {ident : Ident} {ty : Ty} {span : Span} {id : DeclId}
    (h : (newDecl kind ident ty span).Yields p id q) (hident : ident.decl = none) (hreturn : kind.hasReturn = false)
    (parent : NodeId) : Laid p.arena q.arena [.decl id ⟨kind, ident, ty, span, some parent⟩] := by
  cases h
  exact laid_pushDecl _ _ _ _ hreturn hident

end Parse

open Parse

namespace Grammar

variable {d : Dispatch}

/-! ## Expressions -/

/-- A step makes an expression of a source tree. -/
abbrev MakesExpr (m : Parse Expr) : Prop := Makes m Expr.Plain Expr.entries

theorem makes_nameForm {expr : Power → Parse Expr} (h : ∀ power, MakesExpr (expr power)) :
    MakesExpr (nameForm expr) := by
  intro p e q hy
  unfold nameForm at hy
  simp only [yields_bind, yields_start, yields_kind] at hy
  obtain ⟨_, _, ⟨rfl, rfl⟩, ident, r, hident, _, _, ⟨rfl, rfl⟩, hy⟩ := hy
  have hunbound := hident.unbound
  rw [← hident.arena_expectIdent]
  split at hy
  · simp only [yields_bind, yields_spanFrom] at hy
    obtain ⟨args, r₁, hargs, _, _, ⟨rfl, rfl⟩, hnew⟩ := hy
    obtain ⟨hplain, hlaid⟩ := (h _).parenthesised hargs
    obtain ⟨⟨info, rfl⟩, hnode⟩ := hnew.newExpr fun _ => ⟨rfl, by simpa [Expr.kind, ExprKind.ident?] using hunbound⟩
    refine ⟨.call hplain, fun parent => ?_⟩
    rw [Expr.entries, Expr.entriesAll_eq]
    exact (hlaid _).append (hnode parent)
  · simp only [yields_bind, yields_spanFrom] at hy
    obtain ⟨t, r₁, ht, index, r₂, hindex, t', r₃, ht', _, _, ⟨rfl, rfl⟩, hnew⟩ := hy
    rw [← ht.arena_advance]
    obtain ⟨hplain, hlaid⟩ := h _ hindex
    obtain ⟨⟨info, rfl⟩, hnode⟩ := hnew.newExpr fun _ => ⟨rfl, by simpa [Expr.kind, ExprKind.ident?] using hunbound⟩
    rw [ht'.arena_expect] at hnode
    refine ⟨.arrayAccess hplain, fun parent => ?_⟩
    rw [Expr.entries]
    exact (hlaid _).append (hnode parent)
  · simp only [yields_bind, yields_spanFrom] at hy
    obtain ⟨_, _, ⟨rfl, rfl⟩, hnew⟩ := hy
    obtain ⟨⟨info, rfl⟩, hnode⟩ := hnew.newExpr fun _ => ⟨rfl, by simpa [Expr.kind, ExprKind.ident?] using hunbound⟩
    exact ⟨.var, hnode⟩

theorem makes_operand {expr : Power → Parse Expr} (h : ∀ power, MakesExpr (expr power)) (form : OperandForm) :
    MakesExpr (operand expr form) := by
  intro p e q hy
  cases form with
  | literal =>
    simp only [operand, yields_bind] at hy
    obtain ⟨t, r, ht, hnew⟩ := hy
    rw [← ht.arena_advance]
    obtain ⟨⟨info, rfl⟩, hnode⟩ := hnew.newExpr fun _ => ⟨rfl, by simp [Expr.kind, ExprKind.ident?]⟩
    exact ⟨.literal, hnode⟩
  | sign =>
    simp only [operand, yields_bind] at hy
    obtain ⟨t, r, ht, operand, r₁, hoperand, hnew⟩ := hy
    rw [← ht.arena_advance]
    obtain ⟨hplain, hlaid⟩ := h _ hoperand
    obtain ⟨⟨info, rfl⟩, hnode⟩ := hnew.newExpr fun _ => ⟨rfl, by simp [Expr.kind, ExprKind.ident?]⟩
    refine ⟨.unary hplain, fun parent => ?_⟩
    rw [Expr.entries]
    exact (hlaid _).append (hnode parent)
  | name => exact makes_nameForm h hy
  | group =>
    simp only [operand, yields_bind, yields_pure] at hy
    obtain ⟨t, r, ht, e, r₁, he, t', r₂, ht', rfl, rfl⟩ := hy
    rw [← ht.arena_advance, ht'.arena_expect]
    exact h _ he

/-- What goes on from an operand lays the nodes of the operand once. -/
theorem makes_continueWith {expr : Power → Parse Expr} (h : ∀ power, MakesExpr (expr power)) {power : Power}
    {form : InfixForm} {left e : Expr} {a : Arena} {p q : Parser} (hplain : left.Plain)
    (hlaid : ∀ parent, Laid a p.arena (left.entries parent)) (hy : (continueWith expr power left form).Yields p e q) :
    e.Plain ∧ ∀ parent, Laid a q.arena (e.entries parent) := by
  cases form with
  | binary =>
    simp only [continueWith, yields_bind] at hy
    obtain ⟨t, r, ht, right, r₁, hright, hnew⟩ := hy
    rw [← ht.arena_advance] at hlaid
    obtain ⟨hplain', hlaid'⟩ := h _ hright
    obtain ⟨⟨info, rfl⟩, hnode⟩ := hnew.newExpr fun _ => ⟨rfl, by simp [Expr.kind, ExprKind.ident?]⟩
    refine ⟨.binary hplain hplain', fun parent => ?_⟩
    rw [Expr.entries]
    exact ((hlaid _).append (hlaid' _)).append (hnode parent)
  | assignment =>
    simp only [continueWith, yields_bind] at hy
    obtain ⟨t, r, ht, value, r₁, hvalue, hnew⟩ := hy
    rw [← ht.arena_advance] at hlaid
    obtain ⟨hplain', hlaid'⟩ := h _ hvalue
    obtain ⟨⟨info, rfl⟩, hnode⟩ := hnew.newExpr fun _ => ⟨rfl, by simp [Expr.kind, ExprKind.ident?]⟩
    refine ⟨.assign hplain hplain', fun parent => ?_⟩
    rw [Expr.entries]
    exact ((hlaid _).append (hlaid' _)).append (hnode parent)

theorem makes_extendUpTo {expr : Power → Parse Expr} (h : ∀ power, MakesExpr (expr power)) {power : Power} (n : Nat)
    {left e : Expr} {a : Arena} {p q : Parser} (hplain : left.Plain)
    (hlaid : ∀ parent, Laid a p.arena (left.entries parent))
    (hy : (extendUpTo d expr power n left).Yields p e q) :
    e.Plain ∧ ∀ parent, Laid a q.arena (e.entries parent) := by
  induction n generalizing left p with
  | zero =>
    obtain ⟨rfl, rfl⟩ := yields_pure.1 hy
    exact ⟨hplain, hlaid⟩
  | succ n ih =>
    simp only [extendUpTo, yields_bind, yields_kind] at hy
    obtain ⟨_, _, ⟨rfl, rfl⟩, hy⟩ := hy
    split at hy
    · obtain ⟨rfl, rfl⟩ := yields_pure.1 hy
      exact ⟨hplain, hlaid⟩
    · split_ifs at hy
      · simp only [yields_bind] at hy
        obtain ⟨e₁, r, he₁, hy⟩ := hy
        obtain ⟨hplain₁, hlaid₁⟩ := makes_continueWith h hplain hlaid he₁
        exact ih hplain₁ hlaid₁ hy
      · obtain ⟨rfl, rfl⟩ := yields_pure.1 hy
        exact ⟨hplain, hlaid⟩

theorem makes_expressionUpTo (n : Nat) (power : Power) : MakesExpr (expressionUpTo d n power) := by
  induction n generalizing power with
  | zero =>
    intro p e q hy
    exact absurd hy not_yields_illegalPrimary
  | succ n ih =>
    intro p e q hy
    simp only [expressionUpTo, yields_bind, yields_kind] at hy
    obtain ⟨_, _, ⟨rfl, rfl⟩, hy⟩ := hy
    split at hy
    · exact absurd hy not_yields_illegalPrimary
    · simp only [yields_bind] at hy
      obtain ⟨left, r, hleft, hy⟩ := hy
      obtain ⟨hplain, hlaid⟩ := makes_operand ih _ hleft
      exact makes_extendUpTo ih _ hplain hlaid hy

theorem makes_expression (power : Power) : MakesExpr (expression d power) :=
  fun _ _ _ hy => makes_expressionUpTo _ power hy

/-! ## Declarations -/

theorem yields_typeName {p q : Parser} {t : Ty} (h : typeName.Yields p t q) :
    t.Declared ∧ t.isArray = false ∧ q.arena = p.arena := by
  unfold typeName at h
  simp only [yields_bind, yields_kind] at h
  obtain ⟨_, _, ⟨rfl, rfl⟩, h⟩ := h
  split at h
  · rename_i t' ht'
    simp only [yields_bind, yields_pure] at h
    obtain ⟨_, r, hadvance, rfl, rfl⟩ := h
    refine ⟨?_, ?_, hadvance.arena_advance⟩
    · unfold baseType? at ht'
      split at ht' <;> cases ht' <;> constructor
    · unfold baseType? at ht'
      split at ht' <;> cases ht' <;> rfl
  · exact absurd h not_yields_fail

theorem Yields.arena_arraySize {p q : Parser} {size : Option Nat} (h : arraySize.Yields p size q) :
    q.arena = p.arena := by
  unfold arraySize at h
  simp only [yields_bind, yields_kind] at h
  obtain ⟨_, _, ⟨rfl, rfl⟩, h⟩ := h
  split_ifs at h
  · simp only [yields_bind, yields_current] at h
    obtain ⟨_, _, ⟨rfl, rfl⟩, h⟩ := h
    split at h
    · simp only [yields_bind, yields_pure] at h
      obtain ⟨t, r, ht, -, rfl⟩ := h
      exact ht.arena_advance
    · exact absurd h not_yields_fail
  · obtain ⟨-, rfl⟩ := yields_pure.1 h
    rfl

theorem yields_declaratorSuffix {p q : Parser} {base t : Ty} (hbase : base.Declared) (harray : base.isArray = false)
    (h : (declaratorSuffix base).Yields p t q) : t.Declared ∧ q.arena = p.arena := by
  unfold declaratorSuffix at h
  simp only [yields_bind, yields_kind] at h
  obtain ⟨_, _, ⟨rfl, rfl⟩, h⟩ := h
  split_ifs at h
  · simp only [yields_bind, yields_pure] at h
    obtain ⟨t, r, ht, size, r₁, hsize, t', r₂, ht', rfl, rfl⟩ := h
    rw [ht'.arena_expect, Yields.arena_arraySize hsize, ht.arena_advance]
    exact ⟨.array harray hbase, rfl⟩
  · obtain ⟨rfl, rfl⟩ := yields_pure.1 h
    exact ⟨hbase, rfl⟩

theorem makes_initialiser : Makes (initialiser d) Expr.PlainInit Expr.entries := by
  intro p e q hy
  unfold initialiser at hy
  simp only [yields_bind, yields_kind] at hy
  obtain ⟨_, _, ⟨rfl, rfl⟩, hy⟩ := hy
  split_ifs at hy
  · simp only [yields_bind, yields_spanFrom] at hy
    obtain ⟨t, r, ht, elements, r₁, helements, t', r₂, ht', _, _, ⟨rfl, rfl⟩, hnew⟩ := hy
    rw [← ht.arena_advance]
    obtain ⟨hplain, hlaid⟩ := (makes_expression .lowest).commaList helements
    obtain ⟨⟨info, rfl⟩, hnode⟩ := hnew.newExpr fun _ => ⟨rfl, by simp [Expr.kind, ExprKind.ident?]⟩
    rw [ht'.arena_expect] at hnode
    refine ⟨.list hplain, fun parent => ?_⟩
    rw [Expr.entries, Expr.entriesAll_eq]
    exact (hlaid _).append (hnode parent)
  · obtain ⟨hplain, hlaid⟩ := makes_expression .lowest hy
    exact ⟨.expr hplain, hlaid⟩

theorem makes_initDeclarator {start : Position} {base : Ty} {ident : Ident} {isGlobal : Bool}
    (hbase : base.Declared) (harray : base.isArray = false) (hident : ident.decl = none) :
    Makes (initDeclarator d start base ident isGlobal) VarDecl.Plain VarDecl.entries := by
  intro p decl q hy
  unfold initDeclarator at hy
  simp only [yields_bind, yields_ite_bind, yields_kind, yields_spanFrom, yields_pure] at hy
  obtain ⟨ty, _, hty, _, r, ⟨rfl, rfl⟩, init, _, hinit, _, r₁, ⟨rfl, rfl⟩, id, r₂, hnew, rfl, rfl⟩ := hy
  obtain ⟨hdeclared, harena⟩ := yields_declaratorSuffix hbase harray hty
  rw [← harena]
  obtain ⟨hplain, hlaid⟩ : (∀ e ∈ init, e.PlainInit) ∧
      ∀ parent, Laid r.arena r₁.arena (Expr.entriesOption parent init) := by
    split_ifs at hinit
    · simp only [yields_bind, yields_map] at hinit
      obtain ⟨t, r₂, ht, e, he, rfl⟩ := hinit
      obtain ⟨hplain, hlaid⟩ := makes_initialiser he
      rw [ht.arena_advance] at hlaid
      exact ⟨by simpa using hplain, hlaid⟩
    · obtain ⟨rfl, rfl⟩ := yields_pure.1 hinit
      exact ⟨by simp, fun _ => .nil _⟩
  refine ⟨⟨hdeclared, hplain⟩, fun parent => (hlaid _).append (hnew.newDecl hident ?_ parent)⟩
  cases isGlobal <;> rfl

theorem makes_varDecls {start : Position} {base : Ty} {first : Ident} {isGlobal : Bool} (hbase : base.Declared)
    (harray : base.isArray = false) (hfirst : first.decl = none) :
    Makes (varDecls d start base first isGlobal) (fun ds => ∀ d ∈ ds, d.Plain)
      fun parent ds => ds.flatMap (VarDecl.entries parent) := by
  intro p ds q hy
  unfold varDecls at hy
  rw [yields_bind] at hy
  obtain ⟨decl, r, hdecl, hy⟩ := hy
  rw [yields_bind] at hy
  obtain ⟨decls, r₁, hdecls, hy⟩ := hy
  simp only [yields_bind, yields_pure] at hy
  obtain ⟨t, _, ht, rfl, rfl⟩ := hy
  rw [ht.arena_expect]
  have hmore : Makes (do
      let _ ← advance
      let start ← Parse.start
      let ident ← expectIdent
      initDeclarator d start base ident isGlobal) VarDecl.Plain VarDecl.entries := by
    intro p decl q hy
    simp only [yields_bind, yields_start] at hy
    obtain ⟨t, r, ht, _, _, ⟨rfl, rfl⟩, ident, r₁, hident, hy⟩ := hy
    rw [← ht.arena_advance, ← hident.arena_expectIdent]
    exact makes_initDeclarator hbase harray hident.unbound hy
  obtain ⟨hplain, hlaid⟩ := makes_initDeclarator hbase harray hfirst hdecl
  obtain ⟨hplains, hlaids⟩ := hmore.many hdecls
  exact ⟨by simpa using ⟨hplain, hplains⟩, fun parent => (hlaid parent).append (hlaids parent)⟩

theorem makes_param : Makes param (fun p => p.ty.Declared) fun parent p => [p.entry parent] := by
  intro p a q hy
  unfold param at hy
  simp only [yields_bind, yields_start, yields_spanFrom, yields_pure] at hy
  obtain ⟨_, _, ⟨rfl, rfl⟩, base, r, hbase, ident, r₁, hident, ty, r₂, hty, _, _, ⟨rfl, rfl⟩, id, r₃, hnew, rfl,
    rfl⟩ := hy
  obtain ⟨hdeclared, harray, harena⟩ := yields_typeName hbase
  obtain ⟨hty, harena'⟩ := yields_declaratorSuffix hdeclared harray hty
  refine ⟨hty, fun parent => ?_⟩
  rw [← harena, ← hident.arena_expectIdent, ← harena']
  exact hnew.newDecl hident.unbound rfl parent

/-! ## Statements -/

/-- A step makes a statement of a source tree. -/
abbrev MakesStmt (m : Parse Stmt) : Prop := Makes m Stmt.Plain Stmt.entries

theorem Yields.finish {p q : Parser} {start : Position} {build : StmtInfo → Stmt} {s : Stmt}
    (h : (finish start build).Yields p s q) (hbuild : ∀ info, (build info).info = info) :
    (∃ info, s = build info) ∧ ∀ parent, Laid p.arena q.arena [s.entry parent] := by
  unfold Grammar.finish at h
  simp only [yields_bind, yields_spanFrom] at h
  obtain ⟨_, _, ⟨rfl, rfl⟩, hnew⟩ := h
  exact hnew.newStmt hbuild

theorem makes_localDecls : Makes (localDecls d) (fun ds => ∀ d ∈ ds, d.Plain)
    fun parent ds => ds.flatMap (VarDecl.entries parent) := by
  intro p ds q hy
  unfold localDecls at hy
  simp only [yields_bind, yields_start] at hy
  obtain ⟨_, _, ⟨rfl, rfl⟩, base, r, hbase, ident, r₁, hident, hy⟩ := hy
  obtain ⟨hdeclared, harray, harena⟩ := yields_typeName hbase
  rw [← harena, ← hident.arena_expectIdent]
  exact makes_varDecls hdeclared harray hident.unbound hy

theorem flatMap_flatten {α β : Type} (f : α → List β) (xss : List (List α)) :
    xss.flatten.flatMap f = xss.flatMap fun xs => xs.flatMap f := by
  rw [← List.flatMap_id, List.flatMap_assoc]
  rfl

theorem makes_blockWith {stmt : Parse Stmt} (h : MakesStmt stmt) :
    Makes (blockWith d stmt) (fun b => b.toStmt.Plain) fun parent b => b.toStmt.entries parent := by
  intro p b q hy
  unfold blockWith at hy
  simp only [yields_bind, yields_pure] at hy
  obtain ⟨t, r, ht, decls, r₁, hdecls, stmts, r₂, hstmts, t', r₃, ht', s, r₄, hs, rfl, rfl⟩ := hy
  rw [← ht.arena_expect]
  obtain ⟨hplain, hlaid⟩ := makes_localDecls.many hdecls
  obtain ⟨hplain', hlaid'⟩ := h.many hstmts
  obtain ⟨⟨info, rfl⟩, hnode⟩ := Yields.finish hs fun _ => rfl
  rw [ht'.arena_expect] at hnode
  refine ⟨.compound ?_ hplain', fun parent => ?_⟩
  · intro decl hdecl
    obtain ⟨ds, hds, hdecl⟩ := List.mem_flatten.1 hdecl
    exact hplain ds hds decl hdecl
  · show Laid r.arena q.arena (Stmt.entries parent (.compound info decls.flatten stmts))
    rw [Stmt.entries, Stmt.entriesAll_eq, flatMap_flatten]
    exact ((hlaid _).append (hlaid' _)).append (hnode parent)

theorem makes_condition : MakesExpr (condition d) := by
  intro p e q hy
  unfold condition at hy
  simp only [yields_bind, yields_pure] at hy
  obtain ⟨t, r, ht, e, r₁, he, t', r₂, ht', rfl, rfl⟩ := hy
  rw [← ht.arena_expect, ht'.arena_expect]
  exact makes_expression .lowest he

theorem makes_optionalExpr {terminator : TokenKind} :
    Makes (optionalExpr d terminator) (fun o => ∀ e ∈ o, e.Plain) Expr.entriesOption := by
  intro p o q hy
  unfold optionalExpr at hy
  simp only [yields_bind, yields_ite_bind, yields_kind, yields_pure] at hy
  obtain ⟨_, _, ⟨rfl, rfl⟩, o, r, ho, t, r₁, ht, rfl, rfl⟩ := hy
  rw [ht.arena_expect]
  split_ifs at ho
  · obtain ⟨rfl, rfl⟩ := yields_pure.1 ho
    exact ⟨by simp, fun _ => .nil _⟩
  · obtain ⟨e, he, rfl⟩ := yields_map.1 ho
    obtain ⟨hplain, hlaid⟩ := makes_expression .lowest he
    exact ⟨by simpa using hplain, hlaid⟩

theorem makes_ifForm {stmt : Parse Stmt} (h : MakesStmt stmt) : MakesStmt (statementForm d stmt .ifForm) := by
  intro p s q hy
  simp only [statementForm, yields_bind, yields_kind] at hy
  obtain ⟨t, r, ht, cond, r₁, hcond, thenBranch, r₂, hthen, _, _, ⟨rfl, rfl⟩, hy⟩ := hy
  rw [← ht.arena_advance]
  obtain ⟨hplain, hlaid⟩ := makes_condition hcond
  obtain ⟨hplain', hlaid'⟩ := h hthen
  split_ifs at hy
  · simp only [yields_bind] at hy
    obtain ⟨t', r₃, ht', elseBranch, r₄, helse, hfinish⟩ := hy
    rw [← ht'.arena_advance] at hlaid'
    obtain ⟨hplain'', hlaid''⟩ := h helse
    obtain ⟨⟨info, rfl⟩, hnode⟩ := Yields.finish hfinish fun _ => rfl
    refine ⟨.ifElse hplain hplain' hplain'', fun parent => ?_⟩
    rw [Stmt.entries]
    exact (((hlaid _).append (hlaid' _)).append (hlaid'' _)).append (hnode parent)
  · obtain ⟨⟨info, rfl⟩, hnode⟩ := Yields.finish hy fun _ => rfl
    refine ⟨.ifThen hplain hplain', fun parent => ?_⟩
    rw [Stmt.entries]
    exact ((hlaid _).append (hlaid' _)).append (hnode parent)

theorem makes_whileForm {stmt : Parse Stmt} (h : MakesStmt stmt) :
    MakesStmt (statementForm d stmt .whileForm) := by
  intro p s q hy
  simp only [statementForm, yields_bind] at hy
  obtain ⟨t, r, ht, cond, r₁, hcond, body, r₂, hbody, hfinish⟩ := hy
  rw [← ht.arena_advance]
  obtain ⟨hplain, hlaid⟩ := makes_condition hcond
  obtain ⟨hplain', hlaid'⟩ := h hbody
  obtain ⟨⟨info, rfl⟩, hnode⟩ := Yields.finish hfinish fun _ => rfl
  refine ⟨.whileStmt hplain hplain', fun parent => ?_⟩
  rw [Stmt.entries]
  exact ((hlaid _).append (hlaid' _)).append (hnode parent)

theorem makes_forForm {stmt : Parse Stmt} (h : MakesStmt stmt) : MakesStmt (statementForm d stmt .forForm) := by
  intro p s q hy
  simp only [statementForm, yields_bind] at hy
  obtain ⟨t, r, ht, t', r', ht', init, r₁, hinit, cond, r₂, hcond, update, r₃, hupdate, body, r₄, hbody,
    hfinish⟩ := hy
  rw [← ht.arena_advance, ← ht'.arena_expect]
  obtain ⟨hplaini, hlaidi⟩ := makes_optionalExpr hinit
  obtain ⟨hplainc, hlaidc⟩ := makes_optionalExpr hcond
  obtain ⟨hplainu, hlaidu⟩ := makes_optionalExpr hupdate
  obtain ⟨hplain, hlaid⟩ := h hbody
  obtain ⟨⟨info, rfl⟩, hnode⟩ := Yields.finish hfinish fun _ => rfl
  refine ⟨.forStmt hplaini hplainc hplainu hplain, fun parent => ?_⟩
  rw [Stmt.entries]
  exact ((((hlaidi _).append (hlaidc _)).append (hlaidu _)).append (hlaid _)).append (hnode parent)

theorem makes_statementForm {stmt : Parse Stmt} (h : MakesStmt stmt) (form : StmtForm) :
    MakesStmt (statementForm d stmt form) := by
  intro p s q hy
  cases form with
  | block =>
    simp only [statementForm, yields_map] at hy
    obtain ⟨b, hb, rfl⟩ := hy
    exact makes_blockWith h hb
  | ifForm => exact makes_ifForm h hy
  | forForm => exact makes_forForm h hy
  | whileForm => exact makes_whileForm h hy
  | breakForm =>
    simp only [statementForm, yields_bind] at hy
    obtain ⟨t, r, ht, t', r', ht', hfinish⟩ := hy
    rw [← ht.arena_advance, ← ht'.arena_expect]
    obtain ⟨⟨info, rfl⟩, hnode⟩ := Yields.finish hfinish fun _ => rfl
    exact ⟨.breakStmt, hnode⟩
  | continueForm =>
    simp only [statementForm, yields_bind] at hy
    obtain ⟨t, r, ht, t', r', ht', hfinish⟩ := hy
    rw [← ht.arena_advance, ← ht'.arena_expect]
    obtain ⟨⟨info, rfl⟩, hnode⟩ := Yields.finish hfinish fun _ => rfl
    exact ⟨.continueStmt, hnode⟩
  | returnForm =>
    simp only [statementForm, yields_bind] at hy
    obtain ⟨t, r, ht, value, r₁, hvalue, hfinish⟩ := hy
    rw [← ht.arena_advance]
    obtain ⟨hplain, hlaid⟩ := makes_optionalExpr hvalue
    obtain ⟨⟨info, rfl⟩, hnode⟩ := Yields.finish hfinish fun _ => rfl
    refine ⟨.returnStmt hplain, fun parent => ?_⟩
    rw [Stmt.entries]
    exact (hlaid _).append (hnode parent)
  | emptyForm =>
    simp only [statementForm, yields_bind] at hy
    obtain ⟨t, r, ht, hfinish⟩ := hy
    rw [← ht.arena_advance]
    obtain ⟨⟨info, rfl⟩, hnode⟩ := Yields.finish hfinish fun _ => rfl
    exact ⟨.emptyStmt, hnode⟩

theorem makes_statementUpTo (n : Nat) : MakesStmt (statementUpTo d n) := by
  induction n with
  | zero =>
    intro p s q hy
    exact absurd hy not_yields_illegalPrimary
  | succ n ih =>
    intro p s q hy
    simp only [statementUpTo, yields_bind, yields_kind] at hy
    obtain ⟨_, _, ⟨rfl, rfl⟩, hy⟩ := hy
    split at hy
    · exact makes_statementForm ih _ hy
    · unfold exprStatement at hy
      simp only [yields_bind, yields_start] at hy
      obtain ⟨_, _, ⟨rfl, rfl⟩, e, r, he, t, r₁, ht, hfinish⟩ := hy
      obtain ⟨hplain, hlaid⟩ := makes_expression .lowest he
      obtain ⟨⟨info, rfl⟩, hnode⟩ := Yields.finish hfinish fun _ => rfl
      rw [ht.arena_expect] at hnode
      refine ⟨.exprStmt hplain, fun parent => ?_⟩
      rw [Stmt.entries]
      exact (hlaid _).append (hnode parent)

theorem makes_statement : MakesStmt (statement d) := fun _ _ _ hy => makes_statementUpTo _ hy

/-! ## Programs -/

theorem makes_topLevel : Makes (topLevel d) (fun ds => ∀ d ∈ ds, d.Plain)
    fun _ ds => ds.flatMap TopDecl.entries := by
  intro p ds q hy
  unfold topLevel at hy
  simp only [yields_bind, yields_start, yields_kind] at hy
  obtain ⟨_, _, ⟨rfl, rfl⟩, ty, r, hty, ident, r₁, hident, _, _, ⟨rfl, rfl⟩, hy⟩ := hy
  obtain ⟨hdeclared, harray, harena⟩ := yields_typeName hty
  rw [← harena, ← hident.arena_expectIdent]
  split_ifs at hy
  · unfold function block at hy
    simp only [yields_bind, yields_spanFrom, yields_pure] at hy
    obtain ⟨_, _, ⟨params, r₂, hparams, body, r₃, hbody, _, _, ⟨rfl, rfl⟩, id, r₄, hnew, rfl, rfl⟩, rfl, rfl⟩ := hy
    obtain ⟨hplain, hlaid⟩ := makes_param.parenthesised hparams
    obtain ⟨hplain', hlaid'⟩ := makes_blockWith makes_statement hbody
    refine ⟨?_, fun _ => ?_⟩
    · simpa using TopDecl.Plain.func ⟨hdeclared, harray, hplain, hplain'⟩
    · beta_reduce
      rw [List.flatMap_singleton, TopDecl.entries, Function.entries, List.map_eq_flatMap]
      exact ((hlaid _).append (hlaid' _)).append (hnew.newDecl hident.unbound rfl .program)
  · simp only [yields_bind, yields_pure] at hy
    obtain ⟨decls, r₂, hdecls, rfl, rfl⟩ := hy
    obtain ⟨hplain, hlaid⟩ := makes_varDecls hdeclared harray hident.unbound hdecls
    refine ⟨?_, fun _ => ?_⟩
    · intro d hd
      obtain ⟨decl, hdecl, rfl⟩ := List.mem_map.1 hd
      exact .var (hplain decl hdecl)
    · beta_reduce
      rw [List.flatMap_map]
      exact hlaid .program

theorem makes_program {p q : Parser} {prog : Program} (h : (program d).Yields p prog q) :
    prog.Plain ∧ Laid p.arena q.arena prog.entries := by
  unfold program at h
  simp only [yields_bind, yields_start, yields_current, yields_pure] at h
  obtain ⟨_, _, ⟨rfl, rfl⟩, decls, _, hdecls, _, r, ⟨rfl, rfl⟩, rfl, rfl⟩ := h
  obtain ⟨hplain, hlaid⟩ := makes_topLevel.many hdecls
  refine ⟨⟨?_, rfl⟩, ?_⟩
  · intro d hd
    obtain ⟨ds, hds, hd⟩ := List.mem_flatten.1 hd
    exact hplain ds hds d hd
  · rw [Program.entries, flatMap_flatten, List.flatMap_nil, List.append_nil]
    exact hlaid .program

end Grammar

theorem exists_of_isOk {source : String} (h : (parse source).result.isOk = true) :
    ∃ p, (parse source).result = .ok p := by
  cases hp : (parse source).result with
  | error f =>
    rw [hp] at h
    cases h
  | ok p => exact ⟨p, rfl⟩

/-- A parse adds the nodes of what it builds one after another. -/
theorem parse_laid {source : String} {p : Program} (h : (parse source).result = .ok p) :
    p.Plain ∧ Laid .empty (Grammar.program .standard (.ofString source)).2.arena p.entries := by
  have hy : (Grammar.program .standard).Yields (.ofString source) p
      (Grammar.program .standard (.ofString source)).2 := Prod.ext h rfl
  have hempty : (Parser.ofString source).arena = .empty := by
    unfold Parser.ofString Parser.ofLexemes
    split <;> rfl
  rw [← hempty]
  exact Grammar.makes_program hy

/-- What a parse builds is a source tree, and its nodes are numbered in order. -/
theorem parse_built {source : String} {p : Program} (h : (parse source).result = .ok p) : p.Plain ∧ p.Numbered := by
  obtain ⟨hplain, hlaid⟩ := parse_laid h
  -- nothing was there before, so that the numbers of the nodes are all numbers that were given out
  have hall {n : Nat} {ids : List Nat} (h : List.range n = List.range 0 ++ ids) : ids = List.range ids.length := by
    rw [List.range_zero, List.nil_append] at h
    rw [← h, List.length_range]
  refine ⟨hplain, ?_, hall hlaid.stmts, ?_⟩
  · have hids := hall hlaid.exprs
    rwa [exprIds, List.length_map] at hids
  · have hids := hall hlaid.decls
    rwa [declIds, List.length_map] at hids

/-- The nodes of what a parse builds are fresh. -/
theorem parse_fresh {source : String} {p : Program} (h : (parse source).result = .ok p) : ∀ x ∈ p.entries, x.Fresh :=
  (parse_laid h).2.fresh

end VCLang
