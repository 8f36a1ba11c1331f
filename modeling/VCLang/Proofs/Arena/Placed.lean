/-
The flat form of a program whose nodes have all numbers below how many there are, each once: it holds
exactly the nodes of the tree, each at its number.
-/
import Mathlib.Data.List.Nodup
import VCLang.Proofs.Tree.Numbering
namespace VCLang

/-! ## Putting values in place -/

section Place

variable {α : Type}

/-- Values put in place one after another. -/
def placeInto (a : Array α) (items : List (Nat × α)) : Array α :=
  items.foldl (fun a item => a.setIfInBounds item.1 item.2) a

theorem placeInto_other {items : List (Nat × α)} {i : Nat} (a : Array α) (h : i ∉ items.map Prod.fst) :
    (placeInto a items)[i]? = a[i]? := by
  induction items generalizing a with
  | nil => rfl
  | cons item items ih =>
    rw [List.map_cons, List.mem_cons, not_or] at h
    rw [placeInto, List.foldl_cons]
    change (placeInto _ items)[i]? = _
    rw [ih _ h.2, Array.getElem?_setIfInBounds_ne (Ne.symm h.1)]

/-- A value is found at its number if no other value has it. -/
theorem placeInto_mem {items : List (Nat × α)} {i : Nat} {x : α} (a : Array α)
    (hnodup : (items.map Prod.fst).Nodup) (hi : i < a.size) (h : (i, x) ∈ items) :
    (placeInto a items)[i]? = some x := by
  induction items generalizing a with
  | nil => cases h
  | cons item items ih =>
    rw [List.map_cons, List.nodup_cons] at hnodup
    rw [placeInto, List.foldl_cons]
    change (placeInto _ items)[i]? = _
    rcases List.mem_cons.1 h with rfl | h
    · rw [placeInto_other _ hnodup.1, Array.getElem?_setIfInBounds_self_of_lt hi]
    · exact ih _ hnodup.2 (by rwa [Array.size_setIfInBounds]) h

/-- The numbers of some values are all numbers below how many there are, each once. -/
def Fills (ids : List Nat) : Prop := ids.Perm (List.range ids.length)

theorem Fills.nodup {ids : List Nat} (h : Fills ids) : ids.Nodup := h.nodup_iff.2 List.nodup_range

theorem getElem?_place [Inhabited α] {items : List (Nat × α)} (h : Fills (items.map Prod.fst)) {i : Nat} {x : α} :
    (place items)[i]? = some x ↔ (i, x) ∈ items := by
  have hlt {i : Nat} {x : α} (hi : (i, x) ∈ items) : i < items.length := by
    have hmem := h.mem_iff.1 (List.mem_map_of_mem hi)
    simpa using hmem
  have hfound {i : Nat} {x : α} (hi : (i, x) ∈ items) : (place items)[i]? = some x :=
    placeInto_mem _ h.nodup (by simpa using hlt hi) hi
  constructor
  · intro hx
    obtain ⟨hsize, -⟩ := Array.getElem?_eq_some_iff.1 hx
    rw [size_place] at hsize
    have hi : i ∈ items.map Prod.fst := h.mem_iff.2 (by simpa using hsize)
    obtain ⟨⟨_, y⟩, hy, rfl⟩ := List.mem_map.1 hi
    cases hx.symm.trans (hfound hy)
    exact hy
  · exact hfound

/-- Values that are put in place stand in the order of their numbers. -/
theorem place_perm {α : Type} [Inhabited α] {items : List (Nat × α)} (h : Fills (items.map Prod.fst)) :
    (place items).toList.Perm (items.map Prod.snd) := by
  let placed := (place items).toList.zipIdx.map Prod.swap
  have hplaced : placed.map Prod.fst = List.range (place items).size := by
    simp [placed, Function.comp_def, List.zipIdx_map_snd, List.range_eq_range']
  have hperm : placed.Perm items := by
    refine (List.perm_ext_iff_of_nodup (List.Nodup.of_map Prod.fst ?_) (List.Nodup.of_map Prod.fst h.nodup)).2 ?_
    · rw [hplaced]
      exact List.nodup_range
    · rintro ⟨i, x⟩
      rw [← getElem?_place h]
      simp [placed, List.mem_zipIdx_iff_getElem?]
  have hvalues := hperm.map Prod.snd
  simpa [placed, Function.comp_def, List.zipIdx_map_fst] using hvalues

/-- An array has the values of another at their places, and no more of them. -/
theorem eq_of_getElem? {α : Type} {xs ys : Array α} (hsize : ys.size ≤ xs.size)
    (h : ∀ (i : Nat) (x : α), xs[i]? = some x → ys[i]? = some x) : ys = xs := by
  refine Array.ext_getElem? fun i => ?_
  cases hx : xs[i]? with
  | some x => exact h i x hx
  | none =>
    rw [Array.getElem?_eq_none_iff] at hx ⊢
    exact Nat.le_trans hsize hx

end Place

/-! ## Programs -/

/-- The nodes of a program have all numbers, each once. -/
structure Program.Complete (p : Program) : Prop where
  exprs : Fills (exprIds p.entries)
  stmts : Fills (stmtIds p.entries)
  decls : Fills (declIds p.entries)

theorem fills_of_eq {ids : List Nat} {n : Nat} (h : ids = List.range n) : Fills ids := by
  rw [Fills, h, List.length_range]

theorem Program.Numbered.complete {p : Program} (h : p.Numbered) : p.Complete :=
  ⟨fills_of_eq h.exprs, fills_of_eq h.stmts, fills_of_eq h.decls⟩

/-- A flat form has a node at its number. -/
def Arena.Holds (a : Arena) : Entry → Prop
  | .expr id node => a.expr? id = some node
  | .stmt id node => a.stmt? id = some node
  | .decl id node => a.decl? id = some node

theorem mem_filterMap_iff {β : Type} {f : Entry → Option β} {es : List Entry} {x : Entry} {b : β}
    (h : ∀ y, f y = some b ↔ y = x) : b ∈ es.filterMap f ↔ x ∈ es := by
  rw [List.mem_filterMap]
  constructor
  · rintro ⟨y, hy, hb⟩
    rwa [← (h y).1 hb]
  · intro hx
    exact ⟨x, hx, (h x).2 rfl⟩

/-- The flat form of a program holds the nodes of its tree and no others. -/
theorem Program.Complete.holds_iff {p : Program} (h : p.Complete) (x : Entry) : p.arena.Holds x ↔ x ∈ p.entries := by
  rcases x with ⟨⟨i⟩, node⟩ | ⟨⟨i⟩, node⟩ | ⟨⟨i⟩, node⟩
  · refine (getElem?_place h.exprs).trans (mem_filterMap_iff ?_)
    rintro (⟨⟨j⟩, node'⟩ | _ | _) <;> simp [Entry.expr?]
  · refine (getElem?_place h.stmts).trans (mem_filterMap_iff ?_)
    rintro (_ | ⟨⟨j⟩, node'⟩ | _) <;> simp [Entry.stmt?]
  · refine (getElem?_place h.decls).trans (mem_filterMap_iff ?_)
    rintro (_ | _ | ⟨⟨j⟩, node'⟩) <;> simp [Entry.decl?]

namespace Arena

variable {a : Arena}

/-- A flat form holds all of some nodes. -/
def Has (a : Arena) (es : List Entry) : Prop := ∀ x ∈ es, a.Holds x

theorem has_append {es fs : List Entry} : a.Has (es ++ fs) ↔ a.Has es ∧ a.Has fs := List.forall_mem_append

theorem Has.of_mem {α : Type} {xs : List α} {f : α → List Entry} (h : a.Has (xs.flatMap f)) {x : α}
    (hx : x ∈ xs) : a.Has (f x) := by
  intro y hy
  exact h y (List.mem_flatMap.2 ⟨x, hx, hy⟩)

end Arena

theorem Program.Complete.has {p : Program} (h : p.Complete) : p.arena.Has p.entries := fun x => (h.holds_iff x).2

theorem Program.arena_sizes (p : Program) : p.arena.exprs.size = (exprIds p.entries).length ∧
    p.arena.stmts.size = (stmtIds p.entries).length ∧ p.arena.decls.size = (declIds p.entries).length := by
  simp only [exprIds, stmtIds, declIds, List.length_map]
  exact ⟨size_place _, size_place _, size_place _⟩

/-- The flat form of a program is the only one that holds its nodes and no others. -/
theorem Program.Complete.arena_eq {p : Program} {a : Arena} (h : p.Complete) (ha : a.Has p.entries)
    (hexprs : a.exprs.size = (exprIds p.entries).length) (hstmts : a.stmts.size = (stmtIds p.entries).length)
    (hdecls : a.decls.size = (declIds p.entries).length) (hprogram : a.program = p.arena.program)
    (hspan : a.span = p.arena.span) : a = p.arena := by
  have hholds (x : Entry) (hx : p.arena.Holds x) : a.Holds x := ha x ((h.holds_iff x).1 hx)
  obtain ⟨hexprs', hstmts', hdecls'⟩ := p.arena_sizes
  have hexprs : a.exprs = p.arena.exprs :=
    eq_of_getElem? (by omega) fun i n hn => hholds (.expr ⟨i⟩ n) hn
  have hstmts : a.stmts = p.arena.stmts :=
    eq_of_getElem? (by omega) fun i n hn => hholds (.stmt ⟨i⟩ n) hn
  have hdecls : a.decls = p.arena.decls :=
    eq_of_getElem? (by omega) fun i n hn => hholds (.decl ⟨i⟩ n) hn
  obtain ⟨exprs, stmts, decls, program, span⟩ := a
  rw [Arena.mk.injEq]
  exact ⟨hexprs, hstmts, hdecls, hprogram, hspan⟩

end VCLang
