/-
A check of what was parsed, as a change of its flat form: whatever it reports, it resolves every expression, and
what it adds can be erased again.
-/
import VCLang.Proofs.Arena.Erasure
import VCLang.Proofs.Elaboration.Decoration
import VCLang.Proofs.Elaboration.Passes
namespace VCLang

open Arena Typing

/-! ## The nodes of a checked program -/

/-- The nodes of a checked program are decorated ones of a source tree, and those of the library functions. -/
theorem decorated_check (options : Options) {p : Program} (hplain : p.Plain) (hp : p.Complete) :
    ∃ es, (check options p).1.entries = es ++ (Library.prototypesFor p).flatMap Prototype.entries ∧
      Decorated p.arena (check options p).1.arena p.entries es ∧ stmtIds es = stmtIds p.entries := by
  have hall := (complete_check options hp).has
  obtain ⟨ds', n', errors, own, htops, -, hcheck⟩ := check_elaborates options p
  have hlisted := hplain.entries_checked ds'
  have hsize : p.arena.exprs.size ≤ p.exprCount := Nat.le_of_eq (size_place _)
  have ha := hp.has
  rw [hplain.entries_eq] at ha ⊢
  rw [hcheck] at hall ⊢
  rw [hlisted, has_append] at hall
  exact ⟨_, hlisted, htops.decorated hplain.decls hsize ha hall.1, htops.renumbered.stmts⟩

theorem stmts_size (p : Program) : p.arena.stmts.size = (stmtIds p.entries).length := by
  rw [stmtIds, List.length_map]
  exact size_place _

/-- A check keeps the flat form of a source tree but for what it finds out and puts in. -/
theorem frame_check (options : Options) {p : Program} (hplain : p.Plain) (hp : p.Complete) :
    Frame p.arena (check options p).1.arena := by
  have hcomplete := complete_check options hp
  obtain ⟨es, hentries, hdecorated, hstmts⟩ := decorated_check options hplain hp
  obtain ⟨ds', n', errors, own, htops, -, hcheck⟩ := check_elaborates options p
  have hdecls : p.arena.decls.size = p.declCount := size_place _
  have hprogram : (check options p).1.arena.program = p.arena.program := by
    rw [hcheck]
    exact htops.ids
  have hspan : (check options p).1.arena.span = p.arena.span := by
    rw [hcheck]
    rfl
  have hsize : (check options p).1.arena.stmts.size = p.arena.stmts.size := by
    rw [stmts_size, stmts_size, hentries, stmtIds_append, (ids_prototypes _).2, List.append_nil, hstmts]
  have hholds (x : Entry) : (check options p).1.arena.Holds x ↔
      x ∈ es ∨ x ∈ (Library.prototypesFor p).flatMap Prototype.entries := by
    rw [hcomplete.holds_iff, hentries, List.mem_append]
  have hkept {x : Entry} (hx : p.arena.Holds x) :
      ∃ x', (check options p).1.arena.Holds x' ∧ Kept p.arena (check options p).1.arena x x' := by
    obtain ⟨x', hx', hkept⟩ := hdecorated.exists_kept ((hp.holds_iff x).1 hx)
    exact ⟨x', (hholds x').2 (.inl hx'), hkept⟩
  have hold {x' : Entry} (hx' : x' ∈ es) (hnew : ¬ p.arena.Contains x'.id) :
      Added p.arena (check options p).1.arena x' := by
    rcases hdecorated.kept_or_added hx' with ⟨x, hx, hkept⟩ | hadded
    · refine absurd ?_ hnew
      have hcontains := ((hp.holds_iff x).2 hx).contains
      cases hkept <;> exact hcontains
    · exact hadded
  constructor
  · intro id n hn
    obtain ⟨x', hx', hkept⟩ := hkept (x := .expr id n) hn
    cases hkept with
    | expr hkept => exact ⟨_, hx', hkept⟩
  · intro id n hn
    obtain ⟨x', hx', hkept⟩ := hkept (x := .stmt id n) hn
    cases hkept with
    | stmt hkept => exact ⟨_, hx', hkept⟩
  · intro id n hn
    obtain ⟨x', hx', hkept⟩ := hkept (x := .decl id n) hn
    cases hkept with
    | decl hkept => exact ⟨_, hx', hkept⟩
  · intro id n hle hn
    rcases (hholds (.expr id n)).1 hn with hmem | hmem
    · exact hold hmem (Nat.not_lt.2 hle)
    · exact absurd hmem not_mem_prototypes
  · exact hsize
  · intro id n hle
    rw [hdecls]
    constructor
    · intro hn
      rcases (hholds (.decl id n)).1 hn with hmem | hmem
      · have hadded := hold hmem (Nat.not_lt.2 hle)
        cases hadded
      · exact hmem
    · exact fun hmem => (hholds (.decl id n)).2 (.inr hmem)
  · exact hprogram
  · exact hspan

/-! ## Behind a parse -/

/-- Whatever a check reports of what was parsed, every expression gets a type, operators are tagged by the types
of their operands unless their own type is `error`, conversions stand alone, and what is assigned has the type
of its target. -/
theorem check_resolved {source : String} {p : Program} (h : (parse source).result = .ok p) (options : Options) :
    Resolved p.arena (check options p).1.arena := by
  obtain ⟨hplain, hnumbered⟩ := parse_built h
  have hclosed := closed_check options (closed_parse h)
  exact (frame_check options hplain hnumbered.complete).resolved (hclosed.complete.linked hclosed.bound)

/-- A conversion, an operator of two tags and one that has none as its operands do not fit. -/
theorem check_resolved_mixed : ∃ source p, (parse source).result = .ok p ∧
    Resolved p.arena (check .standard p).1.arena := by
  let source := "int main(){float x = 1 + 2; x = -x * 3; x = y + true; return 0;}"
  have hparses : (parse source).result.isOk = true := by decide +kernel
  obtain ⟨p, hp⟩ := exists_of_isOk hparses
  exact ⟨source, p, hp, check_resolved hp .standard⟩

/-- Whatever a check reports of what was parsed, it only decorates it: all nodes are kept with what is found out
about them, the only new ones are conversions, omitted conditions and library functions, and without what was
added the flat form is the one from before. -/
theorem check_decorates {source : String} {p : Program} (h : (parse source).result = .ok p) (options : Options) :
    Frame p.arena (check options p).1.arena ∧
      (check options p).1.arena.erase p.arena.exprs.size p.arena.decls.size p.arena.isUnsized = p.arena := by
  obtain ⟨hplain, hnumbered⟩ := parse_built h
  have hframe := frame_check options hplain hnumbered.complete
  have hclosed := closed_parse h
  have hfresh : ∀ x, p.arena.Holds x → x.Fresh := fun x hx => parse_fresh h x ((hnumbered.complete.holds_iff x).1 hx)
  exact ⟨hframe, hframe.erase (hclosed.complete.linked hclosed.bound) hfresh⟩

/-- A size is counted, a condition filled in, a value converted and a mistake left as it is. -/
theorem check_decorates_loop : ∃ source p, (parse source).result = .ok p ∧
    Frame p.arena (check .standard p).1.arena ∧
      (check .standard p).1.arena.erase p.arena.exprs.size p.arena.decls.size p.arena.isUnsized = p.arena := by
  let source := "float f(){float a[] = {1, 2}; for(;;) return a[0] + 1; return z;}"
  have hparses : (parse source).result.isOk = true := by decide +kernel
  obtain ⟨p, hp⟩ := exists_of_isOk hparses
  exact ⟨source, p, hp, check_decorates hp .standard⟩

end VCLang
