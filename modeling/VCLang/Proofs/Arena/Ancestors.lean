/-
Walks from parent to parent. A node that is added adopts nodes that there are and is part of nothing itself, and a
conversion is put between a node and what it was part of. So however a flat form is built, with nodes named by many
others or adopted again, no node is part of itself: each walk comes to an end within as many steps as there are nodes,
and the search for an ancestor is never cut off.
-/
import Mathlib.Data.List.Perm.Subperm
import Mathlib.Logic.Relation
import Mathlib.Order.WellFounded
import VCLang.Proofs.Arena.Pushed
import VCLang.Proofs.Arena.Wrapped
namespace VCLang.Arena

/-! ## Operations -/

/-- The ways to build a flat form. -/
inductive Op where
  | pushExpr (kind : ExprKind) (span : Span)
  | pushStmt (kind : StmtKind) (span : Span)
  | pushDecl (kind : DeclKind) (ident : Ident) (ty : Ty) (span : Span)
  | setProgram (decls : List DeclId) (span : Span)
  | wrapIntToFloat (operand : ExprId)
  deriving DecidableEq, Repr

/-- The nodes that an operation is given. -/
def Op.given : Op → List NodeId
  | pushExpr kind _ => kind.children.map .expr
  | pushStmt kind _ => kind.children
  | pushDecl kind _ _ _ => kind.children
  | setProgram decls _ => decls.map .decl
  | wrapIntToFloat operand => [.expr operand]

/-- A flat form after one operation. -/
def apply (a : Arena) : Op → Arena
  | .pushExpr kind span => (a.pushExpr kind span).2
  | .pushStmt kind span => (a.pushStmt kind span).2
  | .pushDecl kind ident ty span => (a.pushDecl kind ident ty span).2
  | .setProgram decls span => a.setProgram decls span
  | .wrapIntToFloat operand => (a.wrapIntToFloat operand).2

/-- A flat form after some operations. -/
def run (a : Arena) (ops : List Op) : Arena := ops.foldl apply a

/-- Each operation is given nodes that there are when it comes. -/
def Admits (a : Arena) : List Op → Prop
  | [] => True
  | op :: ops => (∀ x ∈ op.given, a.Contains x) ∧ (a.apply op).Admits ops

instance (a : Arena) : DecidablePred a.Contains
  | .program => inferInstanceAs (Decidable True)
  | .decl id => inferInstanceAs (Decidable (id.index < a.decls.size))
  | .stmt id => inferInstanceAs (Decidable (id.index < a.stmts.size))
  | .expr id => inferInstanceAs (Decidable (id.index < a.exprs.size))

instance decidableAdmits (a : Arena) : (ops : List Op) → Decidable (a.Admits ops)
  | [] => inferInstanceAs (Decidable True)
  | op :: ops =>
    have := decidableAdmits (a.apply op) ops
    inferInstanceAs (Decidable ((∀ x ∈ op.given, a.Contains x) ∧ (a.apply op).Admits ops))

variable {a b : Arena} {op : Op} {ops : List Op} {cs : List NodeId} {x y z q : NodeId} {e : ExprId}

/-! ## Links after an operation -/

/-- Of two flat forms the second has the links of the first, except that some nodes are part of a node that is part of
nothing. -/
structure Adopts (a b : Arena) (q : NodeId) (cs : List NodeId) : Prop where
  given : ∀ c ∈ cs, c ≠ .program ∧ a.Contains c
  contains : ∀ x, b.Contains x ↔ x = q ∨ a.Contains x
  parentOf : ∀ x, b.parentOf x = if x = q then none else if x ∈ cs then some q else a.parentOf x

theorem contains_adopt (a : Arena) (q : NodeId) (cs : List NodeId) (x : NodeId) :
    (a.adopt q cs).Contains x ↔ a.Contains x := by
  obtain ⟨hexprs, hstmts, hdecls⟩ := a.adopt_sizes q cs
  cases x <;> simp only [Contains, hexprs, hstmts, hdecls]

theorem parentOf_of_not_contains (h : ¬ a.Contains x) : a.parentOf x = none := by
  cases hx : a.parentOf x with
  | none => rfl
  | some y => exact absurd (contains_of_parentOf hx) h

theorem parentOf_adopt (hcs : ∀ c ∈ cs, c ≠ .program ∧ a.Contains c) (q x : NodeId) :
    (a.adopt q cs).parentOf x = if x ∈ cs then some q else a.parentOf x := by
  by_cases hprogram : x = .program
  · rw [hprogram, if_neg fun hmem => (hcs _ hmem).1 rfl]
    rfl
  by_cases hcontains : a.Contains x
  · obtain ⟨e, he, rfl⟩ := exists_holds hcontains hprogram
    split_ifs with hmem
    · have hparent := (he.adopt_of_mem q hmem).parentOf
      rw [Entry.id_withParent] at hparent
      rw [hparent]
      cases e <;> rfl
    · rw [(he.adopt_of_not_mem q hmem).parentOf, he.parentOf]
  · rw [if_neg fun hmem => hcontains (hcs x hmem).2, parentOf_of_not_contains hcontains]
    exact parentOf_of_not_contains fun h => hcontains ((contains_adopt a q cs x).1 h)

/-- A node that is added is part of nothing. -/
theorem parentOf_pushEntry_self {v : Entry} (hv : a.IsNext v) : (a.pushEntry v).parentOf v.id = none := by
  have hpush {α : Type} {xs : Array α} {n : Nat} (hn : xs.size = n) (v : α) : (xs.push v)[n]? = some v := by
    rw [← hn, Array.getElem?_push_size]
  obtain ⟨hexprs, hstmts, hdecls⟩ := a.adopt_sizes v.id v.children
  cases v with
  | expr id node =>
    cases hv
    exact congrArg (Option.bind · ExprNode.parent) (hpush hexprs _)
  | stmt id node =>
    cases hv
    exact congrArg (Option.bind · StmtNode.parent) (hpush hstmts _)
  | decl id node =>
    cases hv
    exact congrArg (Option.bind · DeclNode.parent) (hpush hdecls _)

/-- A node that is added adopts its parts. -/
theorem adopts_pushEntry {v : Entry} (hv : a.IsNext v) (hgiven : ∀ c ∈ v.children, c ≠ .program ∧ a.Contains c) :
    Adopts a (a.pushEntry v) v.id v.children := by
  refine ⟨hgiven, contains_pushEntry hv, fun x => ?_⟩
  by_cases hx : x = v.id
  · rw [if_pos hx, hx, parentOf_pushEntry_self hv]
  rw [if_neg hx, ← parentOf_adopt hgiven v.id]
  by_cases hprogram : x = .program
  · rw [hprogram]
    rfl
  by_cases hcontains : (a.adopt v.id v.children).Contains x
  · obtain ⟨e, he, rfl⟩ := exists_holds hcontains hprogram
    rw [(he.pushEntry hv).parentOf, he.parentOf]
  · rw [parentOf_of_not_contains hcontains]
    refine parentOf_of_not_contains fun h => hcontains ?_
    exact (contains_adopt ..).2 (((contains_pushEntry hv x).1 h).resolve_left hx)

theorem adopts_setProgram {decls : List DeclId} (hgiven : ∀ x ∈ decls.map NodeId.decl, x ≠ .program ∧ a.Contains x)
    (span : Span) : Adopts a (a.setProgram decls span) .program (decls.map .decl) := by
  have hlinks : (a.setProgram decls span).parentOf = (a.adopt .program (decls.map .decl)).parentOf := by
    funext x
    cases x <;> rfl
  have hnodes : (a.setProgram decls span).Contains = (a.adopt .program (decls.map .decl)).Contains := by
    funext x
    cases x <;> rfl
  refine ⟨hgiven, fun x => ?_, fun x => ?_⟩
  · rw [hnodes, contains_adopt]
    refine ⟨.inr, fun h => h.elim (fun hx => ?_) id⟩
    rw [hx]
    trivial
  · rw [hlinks, parentOf_adopt hgiven]
    split_ifs with hmem hx hx
    · exact absurd hx (hgiven x hmem).1
    · rfl
    · rw [hx]
      rfl
    · rfl

/-- A conversion of an expression that is part of nothing is part of nothing itself. -/
theorem adopts_wrapIntToFloat (he : a.Contains (.expr e)) (hnone : a.parentOf (.expr e) = none) :
    Adopts a (a.wrapIntToFloat e).2 (.expr ⟨a.exprs.size⟩) [.expr e] := by
  rw [wrapIntToFloat_eq_of_none hnone]
  refine ⟨fun c hc => ?_, contains_converting a e, fun x => ?_⟩
  · rw [List.mem_singleton.1 hc]
    exact ⟨NodeId.noConfusion, he⟩
  · simp only [parentOf_converting he, hnone, List.mem_singleton]

/-! ## Walks -/

/-- The links of a flat form lead to nodes that there are, and following them comes to an end. -/
structure Rooted (a : Arena) : Prop where
  contains_parent : ∀ x y, a.parentOf x = some y → a.Contains y
  wellFounded : WellFounded fun y x => a.parentOf x = some y

theorem rooted_empty : Rooted .empty := by
  have hnone (x : NodeId) : empty.parentOf x = none := by cases x <;> rfl
  refine ⟨fun x y h => ?_, ⟨fun x => ⟨x, fun y h => ?_⟩⟩⟩ <;> rw [hnone] at h <;> cases h

/-- Nodes that are adopted by a root are under it. -/
theorem Adopts.rooted (h : Adopts a b q cs) (ha : a.Rooted) : b.Rooted where
  contains_parent x y hy := by
    rw [h.parentOf] at hy
    rw [h.contains]
    split_ifs at hy with hx hmem
    · cases hy
      exact .inl rfl
    · exact .inr (ha.contains_parent x y hy)
  wellFounded := by
    refine ⟨fun x => ?_⟩
    have hroot : Acc (fun y x => b.parentOf x = some y) q := ⟨q, fun y hy => by
      rw [h.parentOf, if_pos rfl] at hy
      cases hy⟩
    -- a walk goes on as before, or to the new root
    induction x using ha.wellFounded.induction with
    | _ x ih =>
      refine ⟨x, fun y hy => ?_⟩
      rw [h.parentOf] at hy
      split_ifs at hy with hx hmem
      · cases hy
        exact hroot
      · exact ih y hy

/-- A node that is put between a node and what this was part of lengthens walks by one step. -/
theorem Interposed.rooted {w : ExprId} (h : Interposed a b w e q) (ha : a.Rooted) : b.Rooted where
  contains_parent x y hy := by
    rw [h.parentOf] at hy
    rw [h.contains]
    split_ifs at hy with hx he
    · cases hy
      exact .inr (ha.contains_parent _ _ h.part)
    · cases hy
      exact .inl rfl
    · exact .inr (ha.contains_parent x y hy)
  wellFounded := by
    have hlinked {x : NodeId} (hx : x ≠ .expr w) : Acc (fun y x => b.parentOf x = some y) x := by
      induction x using ha.wellFounded.induction with
      | _ x ih =>
        have hup {y : NodeId} (hy : a.parentOf x = some y) : Acc (fun y x => b.parentOf x = some y) y :=
          ih y hy fun hw => h.new (hw ▸ ha.contains_parent x y hy)
        refine ⟨x, fun y hy => ?_⟩
        rw [h.parentOf, if_neg hx] at hy
        split_ifs at hy with he
        · cases hy
          subst he
          refine ⟨_, fun z hz => ?_⟩
          rw [h.parentOf, if_pos rfl] at hz
          cases hz
          exact hup h.part
        · exact hup hy
    -- the new node is above another one
    have hnew : b.parentOf (.expr e) = some (.expr w) := by
      rw [h.parentOf, if_neg (h.ne_of_parentOf h.part), if_pos rfl]
    refine ⟨fun x => ?_⟩
    by_cases hx : x = .expr w
    · rw [hx]
      exact (hlinked (h.ne_of_parentOf h.part)).inv hnew
    · exact hlinked hx

theorem Op.ne_program_of_given (op : Op) : ∀ x ∈ op.given, x ≠ .program := by
  rintro x hx rfl
  cases op with
  | pushStmt kind span => cases kind <;> simp [given, StmtKind.children] at hx
  | pushDecl kind ident ty span => cases kind <;> simp [given, DeclKind.children] at hx
  | _ => simp [given] at hx

/-- Each operation on nodes that there are leaves all walks coming to an end. -/
theorem Rooted.apply (ha : a.Rooted) (hop : ∀ x ∈ op.given, a.Contains x) : (a.apply op).Rooted := by
  have hgiven : ∀ x ∈ op.given, x ≠ .program ∧ a.Contains x := fun x hx => ⟨op.ne_program_of_given x hx, hop x hx⟩
  cases op with
  | pushExpr kind span =>
    have hnext : a.IsNext (.expr ⟨a.exprs.size⟩ ⟨kind, span, none, none⟩) := rfl
    exact (adopts_pushEntry hnext hgiven).rooted ha
  | pushStmt kind span =>
    have hnext : a.IsNext (.stmt ⟨a.stmts.size⟩ ⟨kind, span, none⟩) := rfl
    exact (adopts_pushEntry hnext hgiven).rooted ha
  | pushDecl kind ident ty span =>
    have hnext : a.IsNext (.decl ⟨a.decls.size⟩ ⟨kind, ident, ty, span, none⟩) := rfl
    exact (adopts_pushEntry hnext hgiven).rooted ha
  | setProgram decls span => exact (adopts_setProgram hgiven span).rooted ha
  | wrapIntToFloat e =>
    have he : a.Contains (.expr e) := hop _ (List.mem_singleton_self _)
    cases hparent : a.parentOf (.expr e) with
    | none => exact (adopts_wrapIntToFloat he hparent).rooted ha
    | some q => exact (interposed_wrapIntToFloat hparent (ha.contains_parent _ _ hparent)).rooted ha

theorem Rooted.run (ha : a.Rooted) (hops : a.Admits ops) : (a.run ops).Rooted := by
  induction ops generalizing a with
  | nil => exact ha
  | cons op ops ih => exact ih (ha.apply hops.1) hops.2

/-! ## The length of a walk -/

/-- Where a number of steps from parent to parent lead. -/
def climb (a : Arena) : Nat → NodeId → Option NodeId
  | 0, x => some x
  | n + 1, x => (a.parentOf x).bind (a.climb n)

/-- All nodes but the program. -/
def nodes (a : Arena) : List NodeId :=
  (List.range a.exprs.size).map (fun i => .expr ⟨i⟩) ++ (List.range a.stmts.size).map (fun i => .stmt ⟨i⟩) ++
    (List.range a.decls.size).map fun i => .decl ⟨i⟩

theorem length_nodes (a : Arena) : a.nodes.length = a.exprs.size + a.stmts.size + a.decls.size := by
  simp [nodes, Nat.add_assoc]

theorem mem_nodes (hx : a.Contains x) (hne : x ≠ .program) : x ∈ a.nodes := by
  cases x with
  | program => exact absurd rfl hne
  | expr id => simpa [nodes] using ⟨id.index, hx, rfl⟩
  | stmt id => simpa [nodes] using ⟨id.index, hx, rfl⟩
  | decl id => simpa [nodes] using ⟨id.index, hx, rfl⟩

theorem Rooted.not_under_self (ha : a.Rooted) (x : NodeId) : ¬ a.Under x x := by
  have hswap : a.Under x x ↔ Relation.TransGen (fun y x => a.parentOf x = some y) x x := Relation.transGen_swap.symm
  exact fun hx => ha.wellFounded.transGen.irrefl.irrefl x (hswap.1 hx)

/-- A walk comes to a node without a parent, and passes no node twice. -/
theorem Rooted.exists_walk (ha : a.Rooted) (x : NodeId) : ∃ (passed : List NodeId) (y : NodeId),
    passed.Nodup ∧ (∀ z ∈ passed, (z = x ∨ a.Under x z) ∧ ∃ up, a.parentOf z = some up) ∧
      a.climb passed.length x = some y ∧ a.parentOf y = none := by
  induction x using ha.wellFounded.induction with
  | _ x ih =>
    cases hx : a.parentOf x with
    | none => exact ⟨[], x, List.nodup_nil, by simp, rfl, hx⟩
    | some up =>
      obtain ⟨passed, y, hnodup, hpassed, hclimb, hy⟩ := ih up hx
      refine ⟨x :: passed, y, List.nodup_cons.2 ⟨fun hmem => ?_, hnodup⟩, fun z hz => ?_, ?_, hy⟩
      · refine ha.not_under_self x ?_
        rcases (hpassed x hmem).1 with heq | hunder
        · exact .single (hx.trans (congrArg some heq.symm))
        · exact .head hx hunder
      · rcases List.mem_cons.1 hz with rfl | hz
        · exact ⟨.inl rfl, up, hx⟩
        · refine ⟨.inr ?_, (hpassed z hz).2⟩
          rcases (hpassed z hz).1 with rfl | hunder
          · exact .single hx
          · exact .head hx hunder
      · rw [List.length_cons, climb, hx]
        exact hclimb

/-- A walk takes no more steps than there are nodes. -/
theorem Rooted.exists_climb (ha : a.Rooted) (x : NodeId) : ∃ n ≤ a.exprs.size + a.stmts.size + a.decls.size,
    ∃ y, a.climb n x = some y ∧ a.parentOf y = none := by
  obtain ⟨passed, y, hnodup, hpassed, hclimb, hy⟩ := ha.exists_walk x
  refine ⟨passed.length, ?_, y, hclimb, hy⟩
  rw [← length_nodes]
  refine (hnodup.subperm fun z hz => ?_).length_le
  obtain ⟨-, up, hup⟩ := hpassed z hz
  refine mem_nodes (contains_of_parentOf hup) ?_
  rintro rfl
  cases hup

/-! ## The search for an ancestor -/

/-- The search for an ancestor with a property, as long as it takes: it goes on from parent to parent until the
property holds or there is no parent. -/
inductive Search (a : Arena) (p : NodeId → Bool) : NodeId → Option NodeId → Prop
  | ended {x : NodeId} : a.parentOf x = none → Search a p x none
  | found {x y : NodeId} : a.parentOf x = some y → p y = true → Search a p x (some y)
  | further {x y : NodeId} {r : Option NodeId} : a.parentOf x = some y → p y = false → Search a p y r → Search a p x r

variable {p : NodeId → Bool} {n m : Nat}

/-- A bound that the walk stays below does not matter. -/
theorem search_ancestorWithin (hclimb : a.climb n x = some y) (hy : a.parentOf y = none) (hnm : n < m) :
    a.Search p x (a.ancestorWithin p m x) := by
  induction n generalizing x m with
  | zero =>
    cases hclimb
    cases m with
    | zero => cases hnm
    | succ m =>
      rw [ancestorWithin, hy]
      exact .ended hy
  | succ n ih =>
    cases m with
    | zero => cases hnm
    | succ m =>
      obtain ⟨up, hup, hclimb⟩ := Option.bind_eq_some_iff.1 hclimb
      rw [ancestorWithin, hup]
      dsimp only
      split_ifs with hp
      · exact .found hup hp
      · exact .further hup (Bool.eq_false_iff.2 hp) (ih hclimb (Nat.lt_of_succ_lt_succ hnm))

theorem Rooted.search_findAncestor (ha : a.Rooted) (p : NodeId → Bool) (x : NodeId) :
    a.Search p x (a.findAncestor p x) := by
  obtain ⟨n, hn, y, hclimb, hy⟩ := ha.exists_climb x
  exact search_ancestorWithin hclimb hy (Nat.lt_succ_of_le hn)

/-- A search that finds nothing has passed all ancestors. -/
theorem Search.of_none {r : Option NodeId} (h : a.Search p x r) (hr : r = none) (hz : a.Under x z) : p z = false := by
  induction h with
  | ended hx => exact absurd hz (not_under hx)
  | found hy hp => cases hr
  | further hy hp _ ih =>
    rcases (under_iff hy).1 hz with rfl | hz
    · exact hp
    · exact ih hr hz

/-- A search that finds a node has passed all ancestors below that. -/
theorem Rooted.of_search (ha : a.Rooted) {r : Option NodeId} (h : a.Search p x r) (hr : r = some y) :
    a.Under x y ∧ p y = true ∧ ∀ z, a.Under x z → a.Under z y → p z = false := by
  induction h with
  | ended hx => cases hr
  | found hy hp =>
    cases hr
    refine ⟨.single hy, hp, fun z hz hzy => ?_⟩
    rcases (under_iff hy).1 hz with rfl | hz
    · exact absurd hzy (ha.not_under_self _)
    · exact absurd (hz.trans hzy) (ha.not_under_self _)
  | further hup hp _ ih =>
    obtain ⟨hunder, hy, hbetween⟩ := ih hr
    refine ⟨.head hup hunder, hy, fun z hz hzy => ?_⟩
    rcases (under_iff hup).1 hz with rfl | hz
    · exact hp
    · exact hbetween z hz hzy

/-- Of two ancestors one is above the other. -/
theorem under_total (hy : a.Under x y) (hz : a.Under x z) : y = z ∨ a.Under y z ∨ a.Under z y := by
  have hunique : Relator.RightUnique fun x y => a.parentOf x = some y := fun x y z hy hz =>
    Option.some.inj (hy.symm.trans hz)
  rcases Relation.ReflTransGen.total_of_right_unique hunique hy.to_reflTransGen hz.to_reflTransGen with h | h
  · rcases Relation.reflTransGen_iff_eq_or_transGen.1 h with rfl | h
    · exact .inl rfl
    · exact .inr (.inl h)
  · rcases Relation.reflTransGen_iff_eq_or_transGen.1 h with rfl | h
    · exact .inl rfl
    · exact .inr (.inr h)

/-! ## Flat forms that were built -/

/-- In a flat form no node is part of itself, and every walk from parent to parent ends within as many steps as there
are nodes; so the search for an ancestor ends with the nearest one, or with nothing if there is none. -/
structure Climbable (a : Arena) : Prop where
  contains_parent : ∀ x y, a.parentOf x = some y → a.Contains y
  acyclic : ∀ x, ¬ a.Under x x
  /-- The last node of a walk is the program or another node without a parent. -/
  ends : ∀ x, ∃ n ≤ a.exprs.size + a.stmts.size + a.decls.size, ∃ y, a.climb n x = some y ∧ a.parentOf y = none
  terminates : ∀ p x, a.Search p x (a.findAncestor p x)
  nearest : ∀ p x y, a.findAncestor p x = some y ↔
    a.Under x y ∧ p y = true ∧ ∀ z, a.Under x z → a.Under z y → p z = false
  absent : ∀ p x, a.findAncestor p x = none ↔ ∀ y, a.Under x y → p y = false

/-- However a flat form is built from nothing by operations on nodes that there are, walks from parent to parent come
to an end. -/
theorem run_climbable (ops : List Op) (h : empty.Admits ops) : Climbable (empty.run ops) := by
  have ha := rooted_empty.run h
  generalize empty.run ops = a at ha
  have hsearch (p : NodeId → Bool) (x : NodeId) := ha.search_findAncestor p x
  refine ⟨ha.contains_parent, ha.not_under_self, ha.exists_climb, hsearch, fun p x y => ?_, fun p x => ?_⟩
  · refine ⟨fun hy => ha.of_search (hsearch p x) hy, fun ⟨hy, hp, hbetween⟩ => ?_⟩
    cases hfound : a.findAncestor p x with
    | none =>
      rw [(hsearch p x).of_none hfound hy] at hp
      cases hp
    | some z =>
      obtain ⟨hz, hpz, hbetween'⟩ := ha.of_search (hsearch p x) hfound
      rcases under_total hy hz with rfl | hyz | hzy
      · rfl
      · rw [hbetween' y hy hyz] at hp
        cases hp
      · rw [hbetween z hz hzy] at hpz
        cases hpz
  · refine ⟨fun hnone y => (hsearch p x).of_none hnone, fun hall => ?_⟩
    cases hfound : a.findAncestor p x with
    | none => rfl
    | some z =>
      obtain ⟨hz, hpz, -⟩ := ha.of_search (hsearch p x) hfound
      rw [hall z hz] at hpz
      cases hpz

/-- A value that one statement takes from another and that is converted then: the conversion is the newest expression,
and stands below a statement that was there before it. -/
theorem run_climbable_shared :
    let value : ExprId := ⟨0⟩
    let ops : List Op := [.pushExpr (.literal (.int "1")) .dummy, .pushStmt (.returnStmt (some value)) .dummy,
      .pushStmt (.exprStmt value) .dummy, .wrapIntToFloat value, .pushStmt (.compound [] [⟨0⟩, ⟨1⟩]) .dummy]
    empty.Admits ops ∧ Climbable (empty.run ops) ∧
      (empty.run ops).findAncestor (fun x => x matches .stmt _) (.expr value) = some (.stmt ⟨1⟩) ∧
      (empty.run ops).findAncestor (· = .program) (.expr value) = none := by
  refine ⟨by decide, run_climbable _ (by decide), by decide, by decide⟩

end VCLang.Arena
