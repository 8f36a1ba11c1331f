/-
A check keeps which statements always return, whatever it reports: for every statement of the flat form the answer is
the one from before the check, and for every function it is what the check stores with it. The answers are those for
the trees that stand at the numbers of the statements.
-/
import VCLang.Proofs.Arena.Returns
import VCLang.Proofs.Elaboration.Frame
namespace VCLang

open Arena Typing

/-! ## Statements by number -/

theorem stmtIds_eq_nil {es : List Entry} (h : ∀ x ∈ es, x.stmt? = none) : stmtIds es = [] := by
  rw [stmtIds, List.filterMap_eq_nil_iff.2 h, List.map_nil]

theorem stmtIds_flatMap {α : Type} (f : α → List Entry) (xs : List α) :
    stmtIds (xs.flatMap f) = xs.flatMap fun x => stmtIds (f x) := by
  induction xs with
  | nil => rfl
  | cons x xs ih => rw [List.flatMap_cons, stmtIds_append, ih, List.flatMap_cons]

theorem Expr.stmtIds_entries (e : Expr) (parent : NodeId) : stmtIds (e.entries parent) = [] := by
  apply stmtIds_eq_nil
  intro x hx
  obtain ⟨c, -, parent', rfl⟩ := exists_subtree hx
  rfl

theorem VarDecl.stmtIds_entries (d : VarDecl) (parent : NodeId) : stmtIds (d.entries parent) = [] := by
  rw [entries, Expr.entriesOption_eq, stmtIds_append, stmtIds_flatMap,
    List.flatMap_eq_nil_iff.2 fun e _ => e.stmtIds_entries _]
  rfl

/-- The statements of a tree stand in the order of its nodes. -/
theorem Stmt.stmtIds_entries (s : Stmt) (parent : NodeId) :
    stmtIds (s.entries parent) = s.subtrees.map (·.id.index) := by
  induction s using induct_stmts generalizing parent with
  | h s ih =>
    have hparts : (s.stmts.flatMap fun t => stmtIds (t.entries (.stmt s.id))) =
        s.stmts.flatMap fun t => t.subtrees.map (·.id.index) := List.flatMap_congr fun t ht => ih t ht _
    rw [entries_eq, subtrees_eq, stmtIds_append, stmtIds_append, stmtIds_append, stmtIds_flatMap, stmtIds_flatMap,
      stmtIds_flatMap, List.flatMap_eq_nil_iff.2 fun d _ => d.stmtIds_entries _,
      List.flatMap_eq_nil_iff.2 fun e _ => e.stmtIds_entries _, hparts, List.map_append, List.map_flatMap]
    rfl

theorem TopDecl.stmtIds_entries (d : TopDecl) : stmtIds d.entries = d.stmts.map (·.id.index) := by
  cases d with
  | var d => exact d.stmtIds_entries .program
  | func f =>
    have hparams : stmtIds (f.params.map (Param.entry (.decl f.id))) = [] := by
      apply stmtIds_eq_nil
      intro x hx
      obtain ⟨p, -, rfl⟩ := List.mem_map.1 hx
      rfl
    rw [entries, Function.entries, stmtIds_append, stmtIds_append, hparams, Stmt.stmtIds_entries, List.nil_append]
    exact List.append_nil _

namespace Program

variable {p : Program} {s : Stmt} {i : Nat}

theorem stmtIds_entries (p : Program) : stmtIds p.entries = p.statements.map (·.id.index) := by
  rw [entries, stmtIds_append, (ids_prototypes _).2, List.append_nil, stmtIds_flatMap, statements, List.map_flatMap]
  exact List.flatMap_congr fun d _ => d.stmtIds_entries

theorem size_stmts (p : Program) : p.stmts.size = p.arena.stmts.size := by
  rw [stmts_size, stmtIds_entries, stmts, size_place, List.length_map, List.length_map, statements]

/-- The trees of a program are found at their numbers. -/
theorem Complete.getElem?_stmts (hp : p.Complete) : p.stmts[i]? = some s ↔ s ∈ p.statements ∧ s.id.index = i := by
  have hfills : Fills ((p.statements.map fun s => (s.id.index, s)).map Prod.fst) := by
    have hids := hp.stmts
    rw [stmtIds_entries] at hids
    simpa [Function.comp_def] using hids
  refine (getElem?_place hfills).trans ?_
  rw [List.mem_map]
  constructor
  · rintro ⟨t, ht, heq⟩
    cases heq
    exact ⟨ht, rfl⟩
  · rintro ⟨hs, rfl⟩
    exact ⟨s, hs, rfl⟩

/-- What the flat form says of a statement is what is said of the tree that stands at its number. -/
theorem Complete.alwaysReturns_iff (hp : p.Complete) {id : StmtId} (hs : p.stmts[id.index]? = some s) :
    p.arena.AlwaysReturns id ↔ s.alwaysReturns = true := by
  obtain ⟨hmem, hid⟩ := hp.getElem?_stmts.1 hs
  obtain ⟨parent, hall⟩ := hp.has_statement hmem
  rw [show id = s.id from congrArg StmtId.mk hid.symm, hall.alwaysReturns_iff]

/-- For every statement of the flat form there is a tree, with the kind of the node. -/
theorem Complete.exists_tree (hp : p.Complete) {id : StmtId} {n : StmtNode} (hn : p.arena.stmt? id = some n) :
    ∃ s, p.stmts[id.index]? = some s ∧ s.id = id ∧ s.kind = n.kind := by
  have hlt : id.index < p.stmts.size := by
    rw [size_stmts]
    exact (Array.getElem?_eq_some_iff.1 hn).1
  have hs : p.stmts[id.index]? = some p.stmts[id.index] := Array.getElem?_eq_getElem hlt
  obtain ⟨hmem, hindex⟩ := hp.getElem?_stmts.1 hs
  have hid : p.stmts[id.index].id = id := congrArg StmtId.mk hindex
  obtain ⟨parent, hall⟩ := hp.has_statement hmem
  rw [Stmt.entries_eq, has_append] at hall
  have hroot : p.arena.stmt? p.stmts[id.index].id = some ⟨_, _, _⟩ := hall.2 _ (List.mem_singleton_self _)
  rw [hid] at hroot
  cases hn.symm.trans hroot
  exact ⟨_, hs, hid, rfl⟩

end Program

/-! ## Functions -/

/-- In variables and statements there are no functions. -/
theorem VarDecl.isFunction_of_mem {d : VarDecl} {parent : NodeId} {id : DeclId} {n : DeclNode}
    (h : .decl id n ∈ d.entries parent) : n.kind.isFunction = false := by
  rw [entries, Expr.entriesOption_eq, List.mem_append, List.mem_flatMap, List.mem_singleton] at h
  rcases h with ⟨e, -, h⟩ | h
  · obtain ⟨c, -, parent', heq⟩ := Expr.exists_subtree h
    cases heq
  · cases h
    exact isFunction_kind d

theorem Stmt.isFunction_of_mem {s : Stmt} {parent : NodeId} {id : DeclId} {n : DeclNode}
    (h : .decl id n ∈ s.entries parent) : n.kind.isFunction = false := by
  induction s using induct_stmts generalizing parent with
  | h s ih =>
    rw [entries_eq] at h
    simp only [List.mem_append, List.mem_flatMap, List.mem_singleton] at h
    rcases h with ((⟨d, -, h⟩ | ⟨e, -, h⟩) | ⟨t, ht, h⟩) | h
    · exact VarDecl.isFunction_of_mem h
    · obtain ⟨c, -, parent', heq⟩ := Expr.exists_subtree h
      cases heq
    · exact ih t ht h
    · cases h

/-- A function with a body is one of the program. -/
theorem Program.exists_function {p : Program} {id : DeclId} {n : DeclNode} {params : List DeclId} {body : StmtId}
    {hasReturn : Bool} (h : .decl id n ∈ p.entries) (hkind : n.kind = .func params (some body) hasReturn) :
    ∃ f, .func f ∈ p.decls ∧ f.body.id = body ∧ f.hasReturn = hasReturn := by
  have hfunction : n.kind.isFunction = true := by rw [hkind]; rfl
  rw [entries, List.mem_append, List.mem_flatMap, List.mem_flatMap] at h
  rcases h with ⟨d, hd, h⟩ | ⟨f, -, h⟩
  · cases d with
    | var d => cases hfunction.symm.trans (VarDecl.isFunction_of_mem h)
    | func f =>
      simp only [TopDecl.entries, Function.entries, List.mem_append, List.mem_map, List.mem_singleton] at h
      rcases h with (⟨q, -, h⟩ | h) | h
      · cases h
        cases hkind
      · cases hfunction.symm.trans (Stmt.isFunction_of_mem h)
      · cases h
        cases hkind
        exact ⟨f, hd, rfl, rfl⟩
  · -- a predeclared function has no body
    simp only [Prototype.entries, List.mem_append, List.mem_map, List.mem_singleton] at h
    rcases h with ⟨q, -, h⟩ | h
    · cases h
      cases hkind
    · cases h
      cases hkind

namespace Typing

open Check

variable {options : Options} {k k' : Checker} {errors : List Error}

theorem hasReturn_checkFunction {f f' : Function} (h : (checkFunction options f).Ends k f' k' errors) :
    f'.hasReturn = f'.body.toStmt.alwaysReturns := by
  unfold checkFunction at h
  simp only [ends_bind, ends_pure] at h
  -- of all steps only the check of the body counts, and what is returned behind it
  obtain ⟨_, _, _, _, -, -, _, _, _, _, -, -, _, _, _, _, -, -, _, _, _, _, -, -, _, _, _, _, -, -, h⟩ := h
  obtain ⟨body, _, _, _, -, -, _, _, _, _, -, -, _, _, _, _, -, -, _, _, _, _, -, -, rfl, -, -⟩ := h
  rfl

theorem hasReturn_checkTopDecls {ds ds' : List TopDecl} (h : (checkTopDecls options ds).Ends k ds' k' errors) :
    ∀ f, .func f ∈ ds' → f.hasReturn = f.body.toStmt.alwaysReturns := by
  induction ds generalizing k k' ds' errors with
  | nil =>
    obtain ⟨rfl, -, -⟩ := ends_pure.1 h
    simp
  | cons d ds ih =>
    simp only [checkTopDecls, ends_bind, ends_pure] at h
    obtain ⟨d', _, _, _, -, hd, ds', _, _, _, -, hds, rfl, -, -⟩ := h
    intro f hf
    rcases List.mem_cons.1 hf with rfl | hf
    · cases d with
      | func f =>
        obtain ⟨f', hcheck, ⟨⟩⟩ := ends_map.1 hd
        exact hasReturn_checkFunction hcheck
      | var d =>
        obtain ⟨d', -, ⟨⟩⟩ := ends_map.1 hd
    · exact ih hds f hf

/-- A check stores with a function whether its body always returns, as the check leaves the body. -/
theorem hasReturn_check (options : Options) (p : Program) :
    ∀ f, .func f ∈ (check options p).1.decls → f.hasReturn = f.body.toStmt.alwaysReturns := by
  rw [check_eq]
  exact hasReturn_checkTopDecls (ends (checkTopDecls options p.decls) _)

end Typing

/-! ## Behind a parse -/

/-- Of two forms of a program, before and behind a check, the analysis says the same. -/
structure ReturnsKept (p q : Program) : Prop where
  /-- A statement of the flat form always returns if it did before. -/
  nodes : ∀ id, q.arena.AlwaysReturns id ↔ p.arena.AlwaysReturns id
  /-- The trees of the statements, in the order of their numbers, have the same answers. -/
  trees : q.stmts.map Stmt.alwaysReturns = p.stmts.map Stmt.alwaysReturns
  /-- At the number of each statement stands its tree, with the answer of the node. -/
  tree_of_node : ∀ id n, p.arena.stmt? id = some n →
    ∃ s, p.stmts[id.index]? = some s ∧ s.id = id ∧ s.kind = n.kind ∧ (s.alwaysReturns = true ↔ p.arena.AlwaysReturns id)
  /-- What is stored with a function is the answer for its body before the check. -/
  stored : ∀ id n params body hasReturn, q.arena.decl? id = some n → n.kind = .func params (some body) hasReturn →
    (hasReturn = true ↔ p.arena.AlwaysReturns body)

/-- Whatever a check reports of what was parsed, it does not change which statements always return, and with each
function it stores whether the body that was parsed does. -/
theorem check_keeps_returns {source : String} {p : Program} (h : (parse source).result = .ok p) (options : Options) :
    ReturnsKept p (check options p).1 := by
  obtain ⟨hplain, hnumbered⟩ := parse_built h
  have hp := hnumbered.complete
  have hq := complete_check options hp
  have hclosed := closed_parse h
  have hframe := frame_check options hplain hp
  have hnodes := hframe.alwaysReturns_iff (hclosed.complete.linked hclosed.bound)
  constructor
  · exact hnodes
  · have hsize : (check options p).1.stmts.size = p.stmts.size := by
      rw [Program.size_stmts, Program.size_stmts, hframe.no_stmts]
    apply Array.ext
    · rw [Array.size_map, Array.size_map, hsize]
    · intro i hi hi'
      rw [Array.getElem_map, Array.getElem_map]
      rw [Array.size_map] at hi hi'
      have htree : p.arena.AlwaysReturns ⟨i⟩ ↔ _ := hp.alwaysReturns_iff (Array.getElem?_eq_getElem hi')
      have htree' : (check options p).1.arena.AlwaysReturns ⟨i⟩ ↔ _ :=
        hq.alwaysReturns_iff (Array.getElem?_eq_getElem hi)
      rw [Bool.eq_iff_iff, ← htree, ← htree', hnodes]
  · intro id n hn
    obtain ⟨s, hs, hid, hkind⟩ := hp.exists_tree hn
    exact ⟨s, hs, hid, hkind, (hp.alwaysReturns_iff hs).symm⟩
  · -- the flag is that of the checked body, whose node has the answer of the one that was parsed
    intro id n params body hasReturn hn hkind
    obtain ⟨f, hf, rfl, rfl⟩ := Program.exists_function ((hq.holds_iff (.decl id n)).1 hn) hkind
    have hbody := hq.has_function hf
    rw [Function.entries, has_append, has_append] at hbody
    rw [hasReturn_check options p f hf, ← hnodes, ← hbody.1.2.alwaysReturns_iff]
    rfl

/-- A loop that a `break` leaves, and one whose condition is omitted, in front of a value that is converted. -/
theorem check_keeps_returns_loops : ∃ source p, (parse source).result = .ok p ∧
    (check .standard p).1.stmts.map Stmt.alwaysReturns = #[false, false, true, true, false, true, true, true] ∧
    ReturnsKept p (check .standard p).1 := by
  let source := "float f(int x){while(true){if(x == 1) break; return x;} for(;;) return x + 1;}"
  have hanswers : (parse source).result.toOption.map (·.stmts.map Stmt.alwaysReturns) =
      some #[false, false, true, true, false, true, true, true] := by decide +kernel
  cases hp : (parse source).result with
  | error e =>
    rw [hp] at hanswers
    cases hanswers
  | ok p =>
    rw [hp] at hanswers
    have hkept := check_keeps_returns hp .standard
    exact ⟨source, p, hp, hkept.trees.trans (Option.some.inj hanswers), hkept⟩

end VCLang
