/-
Links that are made as nodes are added. A node waits for what it is part of until that is added and adopts it;
once the program adopts its declarations, a parse has linked all nodes as the tree has them.
-/
import VCLang.Proofs.Arena.Links
import VCLang.Proofs.Grammar.Built
namespace VCLang

/-- A node as a part of something else, or of nothing yet. -/
def Entry.withParent (parent : Option NodeId) : Entry → Entry
  | expr id node => .expr id { node with parent }
  | stmt id node => .stmt id { node with parent }
  | decl id node => .decl id { node with parent }

@[simp] theorem Entry.id_withParent (parent : Option NodeId) (x : Entry) : (x.withParent parent).id = x.id := by
  cases x <;> rfl

@[simp] theorem Entry.withParent_withParent (parent parent' : Option NodeId) (x : Entry) :
    (x.withParent parent).withParent parent' = x.withParent parent' := by
  cases x <;> rfl

theorem Entry.withParent_parent (x : Entry) : x.withParent x.parent = x := by
  cases x <;> rfl

namespace Arena

variable {a b : Arena} {x y : Entry} {q : NodeId} {cs : List NodeId}

/-! ## Adopting -/

theorem Holds.setParent (h : a.Holds x) (q : NodeId) : (setParent q a x.id).Holds (x.withParent (some q)) := by
  cases x with
  | expr id node =>
    change a.exprs[id.index]? = some node at h
    show (a.exprs.modify id.index _)[id.index]? = _
    rw [Array.getElem?_modify, if_pos rfl, h]
    rfl
  | stmt id node =>
    change a.stmts[id.index]? = some node at h
    show (a.stmts.modify id.index _)[id.index]? = _
    rw [Array.getElem?_modify, if_pos rfl, h]
    rfl
  | decl id node =>
    change a.decls[id.index]? = some node at h
    show (a.decls.modify id.index _)[id.index]? = _
    rw [Array.getElem?_modify, if_pos rfl, h]
    rfl

theorem getElem?_modify_of_ne {α : Type} {xs : Array α} {i j : Nat} (f : α → α) (h : i ≠ j) :
    (xs.modify j f)[i]? = xs[i]? := by
  rw [Array.getElem?_modify, if_neg h.symm]

theorem Holds.setParent_of_ne {c : NodeId} (h : a.Holds x) (q : NodeId) (hne : x.id ≠ c) :
    (Arena.setParent q a c).Holds x := by
  cases x with
  | expr id node =>
    cases c with
    | expr id' =>
      have hindex : id.index ≠ id'.index := fun heq => hne (congrArg (fun i => NodeId.expr ⟨i⟩) heq)
      exact (getElem?_modify_of_ne _ hindex).trans h
    | _ => exact h
  | stmt id node =>
    cases c with
    | stmt id' =>
      have hindex : id.index ≠ id'.index := fun heq => hne (congrArg (fun i => NodeId.stmt ⟨i⟩) heq)
      exact (getElem?_modify_of_ne _ hindex).trans h
    | _ => exact h
  | decl id node =>
    cases c with
    | decl id' =>
      have hindex : id.index ≠ id'.index := fun heq => hne (congrArg (fun i => NodeId.decl ⟨i⟩) heq)
      exact (getElem?_modify_of_ne _ hindex).trans h
    | _ => exact h

theorem Holds.adopt_of_not_mem (h : a.Holds x) (q : NodeId) (hx : x.id ∉ cs) : (a.adopt q cs).Holds x := by
  induction cs generalizing a with
  | nil => exact h
  | cons c cs ih =>
    rw [List.mem_cons, not_or] at hx
    exact ih (h.setParent_of_ne q hx.1) hx.2

theorem Holds.adopt_of_mem (h : a.Holds x) (q : NodeId) (hx : x.id ∈ cs) :
    (a.adopt q cs).Holds (x.withParent (some q)) := by
  induction cs generalizing a x with
  | nil => cases hx
  | cons c cs ih =>
    change (Arena.adopt (Arena.setParent q a c) q cs).Holds _
    by_cases hc : x.id = c
    · subst hc
      have hset := h.setParent q
      by_cases hagain : x.id ∈ cs
      · simpa using ih hset (by simpa using hagain)
      · exact hset.adopt_of_not_mem q (by simpa using hagain)
    · exact ih (h.setParent_of_ne q hc) ((List.mem_cons.1 hx).resolve_left hc)

/-! ## Adding a node -/

/-- What is there stays as the new node has adopted it. -/
theorem Holds.pushEntry (hy : a.IsNext y) (h : (a.adopt y.id y.children).Holds x) : (a.pushEntry y).Holds x := by
  have hpush {α : Type} {xs : Array α} {i : Nat} {v w : α} (hv : xs[i]? = some v) : (xs.push w)[i]? = some v := by
    rw [Array.getElem?_push_lt (Array.getElem?_eq_some_iff.1 hv).1, (Array.getElem?_eq_some_iff.1 hv).2]
  cases y <;> cases hy <;> cases x <;> first
    | exact h
    | exact hpush h

/-- The new node is part of nothing yet. -/
theorem holds_pushEntry (hy : a.IsNext y) (hfresh : y.Fresh) : (a.pushEntry y).Holds (y.withParent none) := by
  cases y with
  | expr id node =>
    cases hy
    obtain ⟨kind, span, parent, ty⟩ := node
    cases hfresh.1
    have hsize := (a.adopt_sizes (.expr ⟨a.exprs.size⟩) (kind.children.map .expr)).1
    show (Array.push _ _)[a.exprs.size]? = _
    rw [Array.getElem?_push, if_pos hsize.symm]
  | stmt id node =>
    cases hy
    have hsize := (a.adopt_sizes (.stmt ⟨a.stmts.size⟩) node.kind.children).2.1
    show (Array.push _ _)[a.stmts.size]? = _
    rw [Array.getElem?_push, if_pos hsize.symm]
  | decl id node =>
    cases hy
    have hsize := (a.adopt_sizes (.decl ⟨a.decls.size⟩) node.kind.children).2.2
    show (Array.push _ _)[a.decls.size]? = _
    rw [Array.getElem?_push, if_pos hsize.symm]

theorem contains_pushEntry {v : Entry} (hv : a.IsNext v) (x : NodeId) :
    (a.pushEntry v).Contains x ↔ x = v.id ∨ a.Contains x := by
  cases v with
  | expr id node =>
    cases hv
    cases x with
    | expr i =>
      obtain ⟨i⟩ := i
      simp only [pushEntry, pushExpr, Contains, Entry.id, Array.size_push, adopt_sizes, NodeId.expr.injEq,
        ExprId.mk.injEq]
      omega
    | _ => simp [pushEntry, pushExpr, Contains, Entry.id, adopt_sizes]
  | stmt id node =>
    cases hv
    cases x with
    | stmt i =>
      obtain ⟨i⟩ := i
      simp only [pushEntry, pushStmt, Contains, Entry.id, Array.size_push, adopt_sizes, NodeId.stmt.injEq,
        StmtId.mk.injEq]
      omega
    | _ => simp [pushEntry, pushStmt, Contains, Entry.id, adopt_sizes]
  | decl id node =>
    cases hv
    cases x with
    | decl i =>
      obtain ⟨i⟩ := i
      simp only [pushEntry, pushDecl, Contains, Entry.id, Array.size_push, adopt_sizes, NodeId.decl.injEq,
        DeclId.mk.injEq]
      omega
    | _ => simp [pushEntry, pushDecl, Contains, Entry.id, adopt_sizes]

theorem IsNext.not_contains (hy : a.IsNext y) : ¬ a.Contains y.id := by
  cases y <;> cases hy <;> exact Nat.lt_irrefl _

end Arena

open Arena

/-! ## Adding trees -/

/-- Between two flat forms some trees were added: their roots wait for what they are part of, and all other nodes
are linked. -/
structure Planted (a b : Arena) (parent : Option NodeId) (roots : List NodeId) (es : List Entry) : Prop where
  kept : ∀ x, a.Holds x → b.Holds x
  added : ∀ x ∈ es, ¬ a.Contains x.id ∧ b.Contains x.id
  root : ∀ x ∈ es, x.id ∈ roots → x.parent = parent ∧ b.Holds (x.withParent none)
  linked : ∀ x ∈ es, x.id ∉ roots → b.Holds x

variable {a b c : Arena} {parent : Option NodeId} {roots xs ys : List NodeId} {es fs : List Entry} {x y : Entry}

theorem contains_mono (h : ∀ x, a.Holds x → b.Holds x) {y : NodeId} (hy : a.Contains y) : b.Contains y := by
  by_cases hne : y = .program
  · rw [hne]
    trivial
  · obtain ⟨x, hx, rfl⟩ := exists_holds hy hne
    exact (h x hx).contains

namespace Planted

theorem nil (a : Arena) (parent : Option NodeId) : Planted a a parent [] [] := by
  constructor <;> simp

/-- A root has a number that was free, and is there behind. -/
theorem of_root {r : NodeId} (h : Planted a b parent roots es) (hforest : Forest parent roots es) (hr : r ∈ roots) :
    ¬ a.Contains r ∧ b.Contains r := by
  obtain ⟨x, hx, rfl, -⟩ := hforest.exists_root r hr
  exact h.added x hx

theorem append (h : Planted a b parent xs es) (h' : Planted b c parent ys fs) (hes : Forest parent xs es)
    (hfs : Forest parent ys fs) : Planted a c parent (xs ++ ys) (es ++ fs) := by
  have hxs {x : Entry} (hx : x ∈ fs) : x.id ∉ xs := fun hr => (h'.added x hx).1 (h.of_root hes hr).2
  have hys {x : Entry} (hx : x ∈ es) : x.id ∉ ys := fun hr => (h'.of_root hfs hr).1 (h.added x hx).2
  constructor
  · exact fun x hx => h'.kept x (h.kept x hx)
  · intro x hx
    rcases List.mem_append.1 hx with hx | hx
    · exact ⟨(h.added x hx).1, contains_mono h'.kept (h.added x hx).2⟩
    · exact ⟨fun ha => (h'.added x hx).1 (contains_mono h.kept ha), (h'.added x hx).2⟩
  · intro x hx hroot
    rcases List.mem_append.1 hx with hx | hx
    · obtain ⟨hparent, hholds⟩ := h.root x hx ((List.mem_append.1 hroot).resolve_right (hys hx))
      exact ⟨hparent, h'.kept _ hholds⟩
    · exact h'.root x hx ((List.mem_append.1 hroot).resolve_left (hxs hx))
  · intro x hx hroot
    rw [List.mem_append, not_or] at hroot
    rcases List.mem_append.1 hx with hx | hx
    · exact h'.kept x (h.linked x hx hroot.1)
    · exact h'.linked x hx hroot.2

/-- Once the roots are adopted, all nodes are linked. -/
theorem holds_adopt {q : NodeId} (h : Planted a b (some q) roots es) (hx : x ∈ es) : (b.adopt q roots).Holds x := by
  by_cases hroot : x.id ∈ roots
  · obtain ⟨hparent, hholds⟩ := h.root x hx hroot
    have hadopt := hholds.adopt_of_mem q (by simpa using hroot)
    rwa [Entry.withParent_withParent, ← hparent, Entry.withParent_parent] at hadopt
  · exact (h.linked x hx hroot).adopt_of_not_mem q hroot

/-- A node that is added behind the trees of its parts. -/
theorem push (h : Planted a b (some y.id) y.children es) (hforest : Forest (some y.id) y.children es)
    (hnext : b.IsNext y) (hfresh : y.Fresh) : Planted a (b.pushEntry y) y.parent [y.id] (es ++ [y]) := by
  have hnew := holds_pushEntry hnext hfresh
  have hlinked (x : Entry) (hx : x ∈ es) : (b.pushEntry y).Holds x := .pushEntry hnext (h.holds_adopt hx)
  constructor
  · intro x hx
    refine .pushEntry hnext ((h.kept x hx).adopt_of_not_mem _ ?_)
    exact fun hr => (h.of_root hforest hr).1 hx.contains
  · intro x hx
    rcases List.mem_append.1 hx with hx | hx
    · exact ⟨(h.added x hx).1, (hlinked x hx).contains⟩
    · rw [List.mem_singleton.1 hx]
      exact ⟨fun ha => hnext.not_contains (contains_mono h.kept ha), by simpa using hnew.contains⟩
  · intro x hx hroot
    rw [List.mem_singleton] at hroot
    rcases List.mem_append.1 hx with hx | hx
    · refine absurd (h.added x hx).2 ?_
      rw [hroot]
      exact hnext.not_contains
    · rw [List.mem_singleton.1 hx]
      exact ⟨rfl, hnew⟩
  · intro x hx hroot
    rw [List.mem_singleton] at hroot
    rcases List.mem_append.1 hx with hx | hx
    · exact hlinked x hx
    · rw [List.mem_singleton.1 hx] at hroot
      exact absurd rfl hroot

end Planted

/-- Nodes that are added one after another, each behind its parts, make trees. -/
theorem Laid.planted (h : Laid a b es) (hforest : Forest parent roots es) : Planted a b parent roots es := by
  induction hforest generalizing a b with
  | nil =>
    cases h
    exact .nil a _
  | append hes hfs ih ih' =>
    obtain ⟨c, hac, hcb⟩ := h.of_append
    exact (ih hac).append (ih' hcb) hes hfs
  | node hes ih =>
    obtain ⟨c, hac, hcb⟩ := h.of_append
    cases hcb with
    | push hnext hfresh hnil =>
      cases hnil
      exact (ih hac).push hes hnext hfresh

/-- Trees that are part of nothing are linked as soon as they are added. -/
theorem Laid.has_of_orphans (h : Laid a b es) (hforest : Forest none roots es) : b.Has es := by
  intro x hx
  have hplanted := h.planted hforest
  by_cases hroot : x.id ∈ roots
  · obtain ⟨hparent, hholds⟩ := hplanted.root x hx hroot
    rwa [← hparent, Entry.withParent_parent] at hholds
  · exact hplanted.linked x hx hroot

/-- What there is behind some additions was there before, or was added. -/
theorem Laid.contains (h : Laid a b es) (z : NodeId) : b.Contains z ↔ a.Contains z ∨ ∃ x ∈ es, x.id = z := by
  induction h with
  | nil => simp
  | push hnext _ _ ih =>
    rw [ih, contains_pushEntry hnext]
    simp only [List.exists_mem_cons_iff, eq_comm (a := z)]
    tauto

/-- Additions leave the program as it is. -/
theorem Laid.program (h : Laid a b es) : b.program = a.program ∧ b.span = a.span := by
  have hset (a : Arena) (q c : NodeId) : (setParent q a c).program = a.program ∧ (setParent q a c).span = a.span := by
    cases c <;> exact ⟨rfl, rfl⟩
  have hadopt (a : Arena) (q : NodeId) (cs : List NodeId) :
      (a.adopt q cs).program = a.program ∧ (a.adopt q cs).span = a.span := by
    induction cs generalizing a with
    | nil => exact ⟨rfl, rfl⟩
    | cons c cs ih =>
      obtain ⟨hprogram, hspan⟩ := hset a q c
      exact ⟨(ih _).1.trans hprogram, (ih _).2.trans hspan⟩
  induction h with
  | nil => exact ⟨rfl, rfl⟩
  | @push a b x es _ _ _ ih =>
    have hpush : (a.pushEntry x).program = a.program ∧ (a.pushEntry x).span = a.span := by
      cases x <;> exact hadopt ..
    exact ⟨ih.1.trans hpush.1, ih.2.trans hpush.2⟩

/-! ## Programs -/

/-- The flat form that a parse builds node by node, with the links it makes on the way, is that of its tree. -/
theorem parse_arena {source : String} {p : Program} (h : (parse source).result = .ok p) :
    (Grammar.program .standard (.ofString source)).2.arena.setProgram (p.decls.map TopDecl.id) p.span = p.arena := by
  obtain ⟨hplain, hlaid⟩ := parse_laid h
  have hforest : Forest (some .program) (p.decls.map fun d => .decl d.id) p.entries := by
    rw [hplain.entries_eq]
    exact p.forest_decls
  have hplanted := hlaid.planted hforest
  generalize (Grammar.program .standard (.ofString source)).2.arena = built at hlaid hplanted ⊢
  have hroots : (p.decls.map TopDecl.id).map NodeId.decl = p.decls.map fun d => .decl d.id := List.map_map ..
  obtain ⟨hexprs', hstmts', hdecls'⟩ := hlaid.sizes
  obtain ⟨hexprs, hstmts, hdecls⟩ := built.adopt_sizes .program (p.decls.map fun d => .decl d.id)
  refine (parse_built h).2.complete.arena_eq ?_ ?_ ?_ ?_ rfl rfl <;> rw [setProgram, hroots]
  · exact fun x hx => hplanted.holds_adopt hx
  · exact hexprs.trans (hexprs'.trans (Nat.zero_add _))
  · exact hstmts.trans (hstmts'.trans (Nat.zero_add _))
  · exact hdecls.trans (hdecls'.trans (Nat.zero_add _))

end VCLang
