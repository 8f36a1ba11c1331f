/-
Checks of what was checked before. Whatever a check reports, the nodes of the program it makes are numbered
without gaps and its names are bound to declarations in it. A check can be carried out in the flat form of the program
by edits in place, each of which leaves the links in agreement; so they agree after any number of checks, and in the
course of each, as they do behind a parse.
-/
import VCLang.Proofs.Arena.Pushed
import VCLang.Proofs.Elaboration.InPlace
namespace VCLang

open Arena Edit Typing

/-! ## Library functions -/

/-- A flat form has a library function at a number: it has no body and is part of nothing. -/
def Arena.IsLibraryFunction (a : Arena) (d : DeclId) : Prop :=
  ∃ e ∈ Library.entries, ∃ params,
    a.decl? d = some ⟨.func params none false, .unbound e.name .dummy, e.ret, .dummy, none⟩

/-- A function that is predeclared is one of the library, with a number that was free. -/
def Prototype.OfLibrary (first : Nat) (f : Prototype) : Prop :=
  first ≤ f.id.index ∧ ∃ e ∈ Library.entries, f.ident = .unbound e.name .dummy ∧ f.ty = e.ret ∧ f.span = .dummy

theorem Library.mem_number {first : Nat} {es : List Library.Entry} {f : Prototype} (hf : f ∈ Library.number first es) :
    first ≤ f.id.index ∧ ∃ e ∈ es, f.ident = .unbound e.name .dummy ∧ f.ty = e.ret ∧ f.span = .dummy := by
  induction es generalizing first with
  | nil => cases hf
  | cons e es ih =>
    rcases List.mem_cons.1 hf with rfl | hf
    · exact ⟨Nat.le_add_right .., e, by simp, rfl, rfl, rfl⟩
    · obtain ⟨hfirst, e', he', hrest⟩ := ih hf
      exact ⟨by omega, e', by simp [he'], hrest⟩

/-- No name of a library function or of its parameters is bound. -/
theorem Library.bound_number (N first : Nat) (es : List Library.Entry) :
    Bound N ((Library.number first es).flatMap Prototype.entries) := by
  induction es generalizing first with
  | nil => exact bound_nil
  | cons e es ih =>
    rw [Library.number, List.flatMap_cons, bound_append, Prototype.entries, bound_append, bound_decl]
    refine ⟨⟨?_, by simp [Ident.unbound]⟩, ih _⟩
    intro x hx
    obtain ⟨p, hp, rfl⟩ := List.mem_map.1 hx
    obtain ⟨i, hi, rfl⟩ := List.mem_mapIdx.1 hp
    simp [Param.entry, VCLang.Entry.ident?, Ident.unbound]

/-! ## One check -/

theorem Bound.mono {M N : Nat} {es : List Entry} (h : Bound M es) (hle : M ≤ N) : Bound N es :=
  fun x hx i hi d hd => Nat.lt_of_lt_of_le (h x hx i hi d hd) hle

/-- The nodes of a program are numbered without gaps, and its names are bound to declarations in it. -/
structure Program.Closed (p : Program) : Prop where
  complete : p.Complete
  bound : Bound p.declCount p.entries

theorem Program.Complete.declaresBelow {p : Program} (h : p.Complete) : DeclaresBelow p.declCount p.entries := by
  intro i hi
  have hmem := h.decls.mem_iff.1 hi
  rwa [List.mem_range, declIds_length] at hmem

/-- A check only adds declarations. -/
theorem declCount_check (options : Options) (p : Program) : p.declCount ≤ (check options p).1.declCount := by
  obtain ⟨ds', n', errors, own, htops, -, hcheck⟩ := check_elaborates options p
  have hkept := htops.renumbered.decls
  rw [hcheck]
  simp only [Program.declCount, ← declIds_length, Program.entries_checked, declIds_append, hkept, List.length_append]
  rw [Program.entries, declIds_append, List.length_append]
  exact Nat.le_add_right ..

theorem closed_check (options : Options) {p : Program} (hp : p.Closed) : (check options p).1.Closed := by
  have hcomplete := complete_check options hp.complete
  have hle := declCount_check options p
  have hbelow := hcomplete.declaresBelow
  refine ⟨hcomplete, ?_⟩
  generalize (check options p).1.declCount = N at hle hbelow ⊢
  obtain ⟨ds', n', errors, own, htops, -, hcheck⟩ := check_elaborates options p
  rw [hcheck, Program.entries_checked, declaresBelow_append, declaresBelow_append] at hbelow
  obtain ⟨⟨hdecls, -⟩, hlibrary⟩ := hbelow
  -- the check keeps the numbers of declarations, so that those to be checked are in range as well
  have hsource : DeclaresBelow N (p.decls.flatMap TopDecl.entries) := by
    rwa [DeclaresBelow, htops.renumbered.decls] at hdecls
  have hempty : Env.Within N .empty := by
    intro name binding h
    cases h
  have henv : Env.Within N (Checker.initial p).env := within_bindAll hempty hlibrary
  have hbound := hp.bound.mono hle
  rw [Program.entries, bound_append] at hbound
  rw [hcheck, Program.entries_checked, bound_append, bound_append]
  exact ⟨⟨htops.bound henv hsource hbound.1, hbound.2⟩, Library.bound_number N _ _⟩

/-! ## A check in place -/

/-- Adding the library functions to the flat form of a program gives that of the program with them. -/
theorem applyAll_installs {p : Program} (hp : p.Complete) :
    applyAll p.arena (Library.entries.map .install) = (Library.addTo p).arena := by
  have hlaid := laid_installs p.arena Library.entries
  have hforest : Forest none _ ((Library.prototypesFor p).flatMap Prototype.entries) :=
    .flatMap (fun f => .decl f.id) fun f _ => f.forest
  have hentries : (Library.addTo p).entries = p.entries ++ (Library.prototypesFor p).flatMap Prototype.entries :=
    p.entries_checked p.decls
  obtain ⟨hexprs, hstmts, hdecls⟩ := p.arena_sizes
  rw [hdecls, declIds_length] at hlaid
  obtain ⟨hexprs', hstmts', hdecls'⟩ := hlaid.sizes
  refine (complete_addTo hp).arena_eq ?_ ?_ ?_ ?_ hlaid.program.1 hlaid.program.2
  · rw [hentries]
    exact has_append.2 ⟨fun x hx => (hlaid.planted hforest).kept x (hp.has x hx), hlaid.has_of_orphans hforest⟩
  · rw [hexprs', hexprs, hentries, exprIds_append, List.length_append]
    rfl
  · rw [hstmts', hstmts, hentries, stmtIds_append, List.length_append]
    rfl
  · rw [hdecls', hdecls, hentries, declIds_append, List.length_append]
    rfl

/-- Once the library functions are there, the edits of a check make of the nodes of a program those of the checked
program. -/
theorem reworks_check (options : Options) {p : Program} (hp : p.Closed) : ∃ n',
    Renumbered (Library.addTo p).entries (check options p).1.entries p.exprCount n' ∧
      Reworks (check options p).1.declCount (List.zipWith TopDecl.edits p.decls (check options p).1.decls).flatten
        p.exprCount (Library.addTo p).entries (check options p).1.entries n' ∧
      (check options p).1.arena.program = p.arena.program := by
  obtain ⟨ds', n', errors, own, htops, -, hcheck⟩ := check_elaborates options p
  have hbound := (closed_check options hp).bound
  rw [hcheck] at hbound ⊢
  rw [Program.entries, bound_append] at hbound
  exact ⟨n', htops.renumbered.append (.of_eq n' rfl rfl rfl), (htops.inPlace hbound.1).frame _, htops.ids⟩

/-- The edits of a check can be made one after another in the flat form of a program. They make it that of the checked
program, and the library functions that they add are those that the checked program has besides. -/
theorem check_inPlace (options : Options) {p : Program} (hp : p.Closed) :
    AllValid p.arena (p.edits (check options p).1) ∧
      applyAll p.arena (p.edits (check options p).1) = (check options p).1.arena ∧
      allInstalled p.arena (p.edits (check options p).1) = (Library.prototypesFor p).map (·.id) := by
  obtain ⟨n', hrenumbered, hreworks, hprogram⟩ := reworks_check options hp
  have hcomplete := complete_addTo hp.complete
  have hchecked := (closed_check options hp).complete
  have hspan : (check options p).1.arena.span = p.arena.span := rfl
  generalize (check options p).1 = q at hrenumbered hreworks hprogram hchecked hspan ⊢
  obtain ⟨hexprs, hstmts, hdecls⟩ := (Library.addTo p).arena_sizes
  have hdecls' : q.declCount = (declIds (Library.addTo p).entries).length := by
    rw [Program.declCount, ← declIds_length, hrenumbered.decls]
  have hexprs' := hrenumbered.exprs.length_eq
  have hcount : (exprIds (Library.addTo p).entries).length = p.exprCount := by
    rw [exprIds_length]
    exact exprCount_addTo p
  simp only [List.length_append, List.length_range] at hexprs'
  obtain ⟨hvalid, hreworked, hsize⟩ := hreworks (a := (Library.addTo p).arena)
    ⟨hcomplete.has, hcomplete.nodup, by omega, by omega⟩
  unfold Program.edits
  rw [allValid_append, applyAll_append, allInstalled_append, applyAll_installs hp.complete,
    allInstalled_eq_nil hreworked.decls, allInstalled_installs, List.append_nil, p.arena_sizes.2.2, declIds_length]
  refine ⟨⟨allValid_installs _ _, hvalid⟩, hchecked.arena_eq hreworked.has ?_ ?_ ?_ ?_ ?_, rfl⟩
  · omega
  · rw [hreworked.stmts, hstmts, hrenumbered.stmts]
  · rw [hreworked.decls, hdecls, hrenumbered.decls]
  · exact hreworked.program.trans hprogram.symm
  · exact hreworked.span.trans hspan.symm

/-- The flat form of one program is made that of another in place: the edits can be made one after another, and the
links agree at every moment between them. -/
structure Program.MadeInPlace (p q : Program) : Prop where
  valid : AllValid p.arena (p.edits q)
  result : applyAll p.arena (p.edits q) = q.arena
  linked : ∀ done more, p.edits q = done ++ more →
    (applyAll p.arena done).Linked (p.predeclared.map (·.id) ++ allInstalled p.arena done)

theorem madeInPlace_check (options : Options) {p : Program} (hp : p.Closed)
    (hl : p.arena.Linked (p.predeclared.map (·.id))) : p.MadeInPlace (check options p).1 := by
  obtain ⟨hvalid, hresult, -⟩ := check_inPlace options hp
  refine ⟨hvalid, hresult, fun done more hedits => linked_applyAll hl ?_⟩
  rw [hedits, allValid_append] at hvalid
  exact hvalid.1

/-- Links agree behind a check as they did before, since each of its edits keeps them so. -/
theorem linked_check (options : Options) {p : Program} (hp : p.Closed)
    (hl : p.arena.Linked (p.predeclared.map (·.id))) :
    (check options p).1.arena.Linked ((check options p).1.predeclared.map (·.id)) := by
  obtain ⟨hvalid, hresult, hinstalled⟩ := check_inPlace options hp
  have hlinked := linked_applyAll hl hvalid
  rwa [hresult, hinstalled, ← List.map_append] at hlinked

/-! ## Any number of checks -/

/-- A program behind some checks, each with its own options. -/
def Typing.rechecked (passes : List Options) (p : Program) : Program :=
  passes.foldl (fun p options => (check options p).1) p

theorem closed_rechecked (passes : List Options) {p : Program} (hp : p.Closed) : (rechecked passes p).Closed := by
  induction passes generalizing p with
  | nil => exact hp
  | cons options passes ih => exact ih (closed_check options hp)

theorem linked_rechecked (passes : List Options) {p : Program} (hp : p.Closed)
    (hl : p.arena.Linked (p.predeclared.map (·.id))) :
    (rechecked passes p).arena.Linked ((rechecked passes p).predeclared.map (·.id)) := by
  induction passes generalizing p with
  | nil => exact hl
  | cons options passes ih => exact ih (closed_check options hp) (linked_check options hp hl)

/-- What is predeclared behind some checks was so before, or is of the library. -/
theorem ofLibrary_rechecked {first : Nat} (passes : List Options) {p : Program} (hfirst : first ≤ p.declCount)
    (hp : ∀ f ∈ p.predeclared, f.OfLibrary first) : ∀ f ∈ (rechecked passes p).predeclared, f.OfLibrary first := by
  induction passes generalizing p with
  | nil => exact hp
  | cons options passes ih =>
    refine ih (Nat.le_trans hfirst (declCount_check options p)) ?_
    show ∀ f ∈ (check options p).1.predeclared, f.OfLibrary first
    obtain ⟨ds', n', errors, own, -, -, hcheck⟩ := check_elaborates options p
    rw [hcheck]
    intro f hf
    rcases List.mem_append.1 hf with hf | hf
    · exact hp f hf
    · obtain ⟨hle, he⟩ := Library.mem_number hf
      exact ⟨Nat.le_trans hfirst hle, he⟩

theorem Program.Complete.isLibraryFunction {p : Program} {first : Nat} (hp : p.Complete) {f : Prototype}
    (hf : f ∈ p.predeclared) (h : f.OfLibrary first) : p.arena.IsLibraryFunction f.id := by
  obtain ⟨-, e, he, hident, hty, hspan⟩ := h
  refine ⟨e, he, f.params.map Param.id, ?_⟩
  have hmem : Entry.decl f.id ⟨.func (f.params.map Param.id) none false, f.ident, f.ty, f.span, none⟩ ∈ p.entries :=
    List.mem_append_right _ (List.mem_flatMap.2 ⟨f, hf, f.root_mem⟩)
  rw [← hident, ← hty, ← hspan]
  exact hp.has _ hmem

/-! ## Behind a parse -/

theorem filterMap_expr? (es : List Entry) : es.filterMap (fun x => x.id.expr?) = (exprIds es).map .mk := by
  rw [exprIds, List.map_map, List.map_filterMap]
  congr 1
  funext x
  cases x <;> rfl

/-- The expressions of a program whose nodes are numbered in order stand in post-order. -/
theorem Program.Numbered.postOrder {p : Program} (hp : p.Numbered) (hplain : p.Plain) :
    p.arena.PostOrder [.program] p.arena.exprIds := by
  have hids : (p.decls.flatMap TopDecl.entries).filterMap (fun x => x.id.expr?) = p.arena.exprIds := by
    have hsize : p.arena.exprs.size = p.exprCount := size_place _
    rw [filterMap_expr?, ← hplain.entries_eq, hp.exprs, Arena.exprIds, hsize]
  have hdecls : p.arena.Has (p.decls.flatMap TopDecl.entries) :=
    fun x hx => hp.complete.has x (List.mem_append_left _ hx)
  have hroots : p.arena.childrenOf .program = p.decls.map fun d => .decl d.id := List.map_map ..
  have hbelow := hdecls.postOrder p.forest_decls
  rw [hids, ← hroots] at hbelow
  simpa [NodeId.expr?] using Arena.PostOrder.cons hbelow .nil

/-- Expressions that are numbered in order have larger numbers than their parts. -/
theorem Program.Numbered.child_lt {p : Program} (hp : p.Numbered) (hplain : p.Plain) {i c : ExprId}
    (h : .expr c ∈ p.arena.childrenOf (.expr i)) : c.index < i.index := by
  have hsorted : (exprIds (p.decls.flatMap TopDecl.entries)).Pairwise (· < ·) := by
    rw [← hplain.entries_eq, hp.exprs]
    exact List.pairwise_lt_range
  obtain ⟨n, hn, hc⟩ := List.mem_flatMap.1 h
  have hi : Entry.expr i n ∈ p.entries := (hp.complete.holds_iff _).1 (Option.mem_toList.1 hn)
  rw [hplain.entries_eq] at hi
  obtain ⟨c', hc', hid⟩ := List.mem_map.1 hc
  cases hid
  exact p.forest_decls.child_lt hsorted hi hc'

/-- No name is bound in what a parse builds. -/
theorem closed_parse {source : String} {p : Program} (h : (parse source).result = .ok p) : p.Closed := by
  refine ⟨(parse_built h).2.complete, ?_⟩
  intro x hx i hi d hd
  have hfresh := parse_fresh h x hx
  cases x with
  | expr id n =>
    rw [hfresh.2 i hi] at hd
    cases hd
  | stmt id n => cases hi
  | decl id n =>
    cases hi
    rw [hfresh.1] at hd
    cases hd

/-- The nodes of a program make a tree with agreeing links: behind a parse, which makes the links as it adds the
nodes, and where the expressions stand in post-order; and behind any number of checks, which add no other roots
than library functions. Each check turns the flat form that it finds into the one that it leaves by edits in place, and
the links agree between any two of them. -/
theorem parse_linked {source : String} {p : Program} (h : (parse source).result = .ok p) :
    (Grammar.program .standard (.ofString source)).2.arena.setProgram (p.decls.map TopDecl.id) p.span = p.arena ∧
    (p.arena.PostOrder [.program] p.arena.exprIds ∧
      ∀ i c : ExprId, .expr c ∈ p.arena.childrenOf (.expr i) → c.index < i.index) ∧
    p.predeclared = [] ∧ ∀ passes : List Options,
      (rechecked passes p).arena.Linked ((rechecked passes p).predeclared.map (·.id)) ∧
      (∀ d ∈ (rechecked passes p).predeclared.map (·.id),
        p.arena.decls.size ≤ d.index ∧ (rechecked passes p).arena.IsLibraryFunction d) ∧
      ∀ options, (rechecked passes p).MadeInPlace (check options (rechecked passes p)).1 := by
  obtain ⟨hplain, hnumbered⟩ := parse_built h
  refine ⟨parse_arena h, ⟨hnumbered.postOrder hplain, fun i c hc => hnumbered.child_lt hplain hc⟩,
    hplain.predeclared, ?_⟩
  intro passes
  have hparsed := closed_parse h
  have hclosed := closed_rechecked passes hparsed
  have hlinked := linked_rechecked passes hparsed (hparsed.complete.linked hparsed.bound)
  have hsize : p.arena.decls.size = p.declCount := size_place _
  have hlibrary := ofLibrary_rechecked passes (Nat.le_refl p.declCount) (by simp [hplain.predeclared])
  refine ⟨hlinked, ?_, fun options => madeInPlace_check options hclosed hlinked⟩
  intro d hd
  obtain ⟨f, hf, rfl⟩ := List.mem_map.1 hd
  rw [hsize]
  exact ⟨(hlibrary f hf).1, hclosed.complete.isLibraryFunction hf (hlibrary f hf)⟩

/-- A program with mistakes, an omitted condition and conversions, in the course of a check and behind two. -/
theorem parse_linked_twice : ∃ source p, (parse source).result = .ok p ∧ p.MadeInPlace (check .standard p).1 ∧
    (rechecked [.standard, .standard] p).arena.Linked
      ((rechecked [.standard, .standard] p).predeclared.map (·.id)) := by
  let source := "float f(int a[]){float x = a[0]; for(;;) y = x + 1; return g(2);}"
  have hparses : (parse source).result.isOk = true := by decide +kernel
  obtain ⟨p, hp⟩ := exists_of_isOk hparses
  have hchecks := (parse_linked hp).2.2.2
  exact ⟨source, p, hp, (hchecks []).2.2 .standard, (hchecks [.standard, .standard]).1⟩

/-- Behind the library functions, a check puts in a condition and a conversion, with the types it finds on its way. -/
example : ((parse "float f(){for(;;) return 1;}").result.toOption.map fun p =>
    (p.edits (check .standard p).1).drop Library.entries.length) =
      some [.fill ⟨1⟩, .setType ⟨1⟩ .boolean, .setType ⟨0⟩ .int, .wrap ⟨0⟩, .setReturns ⟨0⟩ true] := by decide +kernel

end VCLang
