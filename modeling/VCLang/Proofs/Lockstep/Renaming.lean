/-
Names do not matter. A renaming sends identifiers to identifiers, keeps different ones apart and leaves alone those
that mean something by themselves. What the check makes of a renamed program is what it makes of the program, renamed
in its own nodes; and it reports the same faults in the same order at the same places, of which only the names that
they quote are others.

Every name in a program that was parsed is an identifier, so that a renaming reaches all of them. It is made total by
leaving other texts as they are, and then it is a relabelling that leaves all places alone.
-/
import Mathlib.Logic.Equiv.Basic
import VCLang.Proofs.Arena.Links
import VCLang.Proofs.Diagnostic.Numbers
import VCLang.Proofs.Elaboration.Renumbering
import VCLang.Proofs.Lockstep.Program
import VCLang.Proofs.Printing.Source
namespace VCLang

/-! ## Renamings -/

/-- A text that is spelt as an identifier is. -/
def IsIdentifier (name : String) : Prop := TokenKind.ident.Form name.toList

abbrev Identifier : Type := { name : String // IsIdentifier name }

/-- Other identifiers in place of those of a program, different ones for different ones. -/
structure Renaming where
  name : Identifier → Identifier
  name_injective : Function.Injective name
  name_main : ∀ i : Identifier, i.1 = "main" → name i = i
  name_library : ∀ i : Identifier, ∀ e ∈ Library.entries, i.1 = e.name → name i = i

namespace Renaming

variable {ρ : Renaming} {name : String}

open Classical in
/-- The name that stands in place of a name; a text that is no identifier stays as it is. -/
noncomputable def spelling (ρ : Renaming) (name : String) : String :=
  if h : IsIdentifier name then (ρ.name ⟨name, h⟩).1 else name

theorem spelling_of (h : IsIdentifier name) : ρ.spelling name = (ρ.name ⟨name, h⟩).1 := dif_pos h

theorem spelling_of_not (h : ¬ IsIdentifier name) : ρ.spelling name = name := dif_neg h

theorem isIdentifier_spelling_iff : IsIdentifier (ρ.spelling name) ↔ IsIdentifier name := by
  by_cases h : IsIdentifier name
  · rw [spelling_of h]
    exact iff_of_true (ρ.name _).2 h
  · rw [spelling_of_not h]

theorem spelling_injective (x y : String) (hxy : ρ.spelling x = ρ.spelling y) : x = y := by
  have hiff : IsIdentifier x ↔ IsIdentifier y := by
    rw [← isIdentifier_spelling_iff (ρ := ρ), hxy, isIdentifier_spelling_iff]
  by_cases hx : IsIdentifier x
  · rw [spelling_of hx, spelling_of (hiff.1 hx)] at hxy
    exact congrArg Subtype.val (ρ.name_injective (Subtype.ext hxy))
  · rwa [spelling_of_not hx, spelling_of_not (hiff.not.1 hx)] at hxy

/-- A name that a renaming leaves alone if it is an identifier is left alone. -/
theorem spelling_eq_self (h : ∀ i : Identifier, i.1 = name → ρ.name i = i) : ρ.spelling name = name := by
  by_cases hname : IsIdentifier name
  · rw [spelling_of hname, h _ rfl]
  · exact spelling_of_not hname

theorem not_isIdentifier_empty : ¬ IsIdentifier "" := fun h => h.ne_nil rfl

/-- A renaming as a relabelling: all places stay. -/
noncomputable def relabelling (ρ : Renaming) : Relabelling where
  span := id
  name := ρ.spelling
  name_injective := spelling_injective
  name_main := spelling_eq_self ρ.name_main
  name_library e he := spelling_eq_self fun i hi => ρ.name_library i e he hi
  name_empty := spelling_of_not not_isIdentifier_empty

end Renaming

/-! ## Names of parsed programs -/

/-- Nodes at which only identifiers are used and declared. -/
def Entry.AllNamed (es : List Entry) : Prop := ∀ x ∈ es, ∀ i ∈ x.ident?, IsIdentifier i.spelling

namespace Entry.AllNamed

variable {es fs : List Entry}

@[simp] theorem append_iff : AllNamed (es ++ fs) ↔ AllNamed es ∧ AllNamed fs := List.forall_mem_append

@[simp] theorem singleton_iff {x : Entry} : AllNamed [x] ↔ ∀ i ∈ x.ident?, IsIdentifier i.spelling :=
  List.forall_mem_singleton

@[simp] theorem flatMap_iff {α : Type} {f : α → List Entry} {xs : List α} :
    AllNamed (xs.flatMap f) ↔ ∀ x ∈ xs, AllNamed (f x) := List.forall_mem_flatMap

end Entry.AllNamed

theorem Ident.isIdentifier {i : Ident} (h : i.word.Legible) : IsIdentifier i.spelling := h.form nofun

open Entry

namespace Expr

variable {parent : NodeId}

@[simp] theorem ident?_entry (e : Expr) : (e.entry parent).ident? = e.kind.ident? := rfl

theorem Written.allNamed {e : Expr} (h : e.Written) : AllNamed (e.entries parent) := by
  induction h generalizing parent with
  | binary _ _ _ ihLeft ihRight => simp [entries, kind, ExprKind.ident?, ihLeft, ihRight]
  | unary _ _ ih => simp [entries, kind, ExprKind.ident?, ih]
  | assign _ _ ihTarget ihValue => simp [entries, kind, ExprKind.ident?, ihTarget, ihValue]
  | var hident => simp [entries, kind, ExprKind.ident?, Ident.isIdentifier hident]
  | arrayAccess hident _ ih => simp [entries, kind, ExprKind.ident?, Ident.isIdentifier hident, ih]
  | call hident _ ih =>
    simpa [entries, entriesAll_eq, kind, ExprKind.ident?, Ident.isIdentifier hident] using fun a ha => ih a ha
  | literal _ => simp [entries, kind, ExprKind.ident?]

theorem WrittenInit.allNamed {e : Expr} (h : e.WrittenInit) : AllNamed (e.entries parent) := by
  cases h with
  | expr he => exact he.allNamed
  | list _ helements =>
    simpa [entries, entriesAll_eq, kind, ExprKind.ident?] using fun e he => (helements e he).allNamed

theorem allNamed_option {o : Option Expr} (h : ∀ e ∈ o, AllNamed (e.entries parent)) :
    AllNamed (entriesOption parent o) := by
  cases o with
  | none => exact List.forall_mem_nil _
  | some e => exact h e rfl

end Expr

theorem VarDecl.Written.allNamed {d : VarDecl} {parent : NodeId} (h : d.Written) : AllNamed (d.entries parent) := by
  rw [VarDecl.entries, AllNamed.append_iff, AllNamed.singleton_iff]
  refine ⟨Expr.allNamed_option fun e he => (h.init e he).allNamed, ?_⟩
  rintro _ ⟨⟩
  exact Ident.isIdentifier h.ident

namespace Stmt

@[simp] theorem ident?_entry {parent : NodeId} (s : Stmt) : (s.entry parent).ident? = none := rfl

theorem Written.allNamed {s : Stmt} {parent : NodeId} (h : s.Written) : AllNamed (s.entries parent) := by
  have hoption {parent : NodeId} {o : Option Expr} (h : ∀ e ∈ o, e.Written) :
      AllNamed (Expr.entriesOption parent o) := Expr.allNamed_option fun e he => (h e he).allNamed
  induction h generalizing parent with
  | compound hdecls _ ih =>
    simpa [entries, entriesAll_eq] using ⟨fun d hd => (hdecls d hd).1.allNamed, fun s hs => ih s hs⟩
  | ifThen hcond _ ih => simp [entries, hcond.allNamed, ih]
  | ifElse hcond _ _ _ ihThen ihElse => simp [entries, hcond.allNamed, ihThen, ihElse]
  | whileStmt hcond _ ih => simp [entries, hcond.allNamed, ih]
  | forStmt hinit hcond hupdate _ ih => simp [entries, hoption hinit, hoption hcond, hoption hupdate, ih]
  | returnStmt hvalue => simp [entries, hoption hvalue]
  | exprStmt hexpr => simp [entries, hexpr.allNamed]
  | breakStmt | continueStmt | emptyStmt => simp [entries]

end Stmt

theorem TopDecl.Written.allNamed {d : TopDecl} (h : d.Written) : AllNamed d.entries := by
  cases h with
  | func hf =>
    rw [TopDecl.entries, Function.entries, AllNamed.append_iff, AllNamed.append_iff, AllNamed.singleton_iff]
    refine ⟨⟨?_, hf.body.allNamed⟩, ?_⟩
    · intro x hx
      obtain ⟨q, hq, rfl⟩ := List.mem_map.1 hx
      rintro _ ⟨⟩
      exact Ident.isIdentifier (hf.params q hq).ident
    · rintro _ ⟨⟩
      exact Ident.isIdentifier hf.ident
  | var hd _ => exact hd.allNamed

/-- Every name in a program that was parsed is an identifier. -/
theorem parse_allNamed {source : String} {p : Program} (h : (parse source).result = .ok p) : AllNamed p.entries := by
  rw [(parse_built h).1.entries_eq, AllNamed.flatMap_iff]
  exact fun d hd => (parse_written h d hd).allNamed

/-! ## Relabelled flat forms -/

section FlatForms

variable {r : Relabelling} {own : Nat}

def ExprNode.relabel (r : Relabelling) (n : ExprNode) : ExprNode :=
  { n with kind := n.kind.relabel r, span := r.span n.span }

def StmtNode.relabel (r : Relabelling) (n : StmtNode) : StmtNode := { n with span := r.span n.span }

def DeclNode.relabel (r : Relabelling) (n : DeclNode) : DeclNode :=
  { n with ident := n.ident.relabel r, span := r.span n.span }

/-- A flat form with the nodes relabelled, of the declarations only those with a number below `own`. -/
def Arena.relabel (r : Relabelling) (own : Nat) (a : Arena) : Arena where
  exprs := a.exprs.map (ExprNode.relabel r)
  stmts := a.stmts.map (StmtNode.relabel r)
  decls := a.decls.mapIdx fun i n => if i < own then n.relabel r else n
  program := a.program
  span := r.span a.span

theorem ids_relabel (es : List Entry) : exprIds (es.map (Entry.relabel r)) = exprIds es ∧
    stmtIds (es.map (Entry.relabel r)) = stmtIds es ∧ declIds (es.map (Entry.relabel r)) = declIds es := by
  induction es with
  | nil => exact ⟨rfl, rfl, rfl⟩
  | cons x es ih =>
    obtain ⟨hexprs, hstmts, hdecls⟩ := ih
    cases x with
    | expr id n => exact ⟨congrArg (id.index :: ·) hexprs, hstmts, hdecls⟩
    | stmt id n => exact ⟨hexprs, congrArg (id.index :: ·) hstmts, hdecls⟩
    | decl id n => exact ⟨hexprs, hstmts, congrArg (id.index :: ·) hdecls⟩

namespace Program

theorem ids_relabel_entries (p : Program) : exprIds (p.relabel r).entries = exprIds p.entries ∧
    stmtIds (p.relabel r).entries = stmtIds p.entries ∧ declIds (p.relabel r).entries = declIds p.entries := by
  obtain ⟨hexprs, hstmts, hdecls⟩ := ids_relabel (r := r) (p.decls.flatMap TopDecl.entries)
  rw [relabel_entries, entries]
  simp only [exprIds_append, stmtIds_append, declIds_append, hexprs, hstmts, hdecls, true_and]

theorem Complete.relabel {p : Program} (h : p.Complete) : (p.relabel r).Complete := by
  obtain ⟨hexprs, hstmts, hdecls⟩ := p.ids_relabel_entries (r := r)
  exact ⟨hexprs ▸ h.exprs, hstmts ▸ h.stmts, hdecls ▸ h.decls⟩

end Program

namespace Arena

variable {a : Arena} {x : Entry}

theorem Holds.relabel (h : a.Holds x) (hown : ∀ id n, x = .decl id n → id.index < own) :
    (a.relabel r own).Holds (x.relabel r) := by
  cases x with
  | expr id n => simpa [Holds, expr?, Arena.relabel, Entry.relabel] using ⟨n, h, rfl⟩
  | stmt id n => simpa [Holds, stmt?, Arena.relabel, Entry.relabel] using ⟨n, h, rfl⟩
  | decl id n => simpa [Holds, decl?, Arena.relabel, Entry.relabel] using ⟨n, h, if_pos (hown id n rfl)⟩

theorem Holds.relabel_decl {id : DeclId} {n : DeclNode} (h : a.Holds (.decl id n)) (hown : own ≤ id.index) :
    (a.relabel r own).Holds (.decl id n) := by
  simpa [Holds, decl?, Arena.relabel] using ⟨n, h, if_neg (Nat.not_lt.2 hown)⟩

end Arena

/-- The flat form of a relabelled program, where `own` is a bound between the numbers of its declarations and those of
the predeclared functions. -/
theorem Program.relabel_arena {p : Program} (h : p.Complete)
    (hown : ∀ i ∈ declIds (p.decls.flatMap TopDecl.entries), i < own)
    (hpredeclared : ∀ i ∈ declIds (p.predeclared.flatMap Prototype.entries), own ≤ i) :
    (p.relabel r).arena = p.arena.relabel r own := by
  obtain ⟨hexprs, hstmts, hdecls⟩ := p.ids_relabel_entries (r := r)
  refine (h.relabel.arena_eq ?_ ?_ ?_ ?_ ?_ ?_).symm
  · intro x hx
    rw [relabel_entries] at hx
    rcases List.mem_append.1 hx with hx | hx
    · obtain ⟨y, hy, rfl⟩ := List.mem_map.1 hx
      refine ((h.holds_iff y).2 (List.mem_append_left _ hy)).relabel ?_
      rintro id n rfl
      exact hown _ (mem_declIds hy)
    · obtain ⟨id, n, rfl⟩ := eq_decl_of_mem_prototypes hx
      have hholds := (h.holds_iff (.decl id n)).2 (List.mem_append_right _ hx)
      exact hholds.relabel_decl (hpredeclared _ (mem_declIds hx))
  · rw [hexprs, exprIds, List.length_map]
    exact (Array.size_map ..).trans (size_place _)
  · rw [hstmts, stmtIds, List.length_map]
    exact (Array.size_map ..).trans (size_place _)
  · rw [hdecls, declIds, List.length_map]
    exact Array.size_mapIdx.trans (size_place _)
  · simp [Program.arena, Arena.relabel, relabel, Function.comp_def]
  · rfl

end FlatForms

/-! ## Codes -/

theorem Fault.template_relabel (r : Relabelling) (f : Fault) : (f.relabel r).template = f.template := by
  cases f <;> rfl

theorem Fault.number?_relabel (r : Relabelling) (f : Fault) : (f.relabel r).number? = f.number? := by cases f <;> rfl

/-- Only faults of the meaning quote names. -/
theorem Fault.relabel_eq_self {r : Relabelling} {f : Fault} (h : f.number? = none) : f.relabel r = f := by
  cases f <;> first | rfl | cases h

/-- Other names in what a message quotes leave its number as it is. -/
theorem Error.code?_relabel (r : Relabelling) (e : Error) : (e.relabel r).diagnostic.code? = e.diagnostic.code? := by
  show catalogNumber? (fill (e.fault.relabel r).template (e.fault.relabel r).quoted) =
    catalogNumber? (fill e.fault.template e.fault.quoted)
  rcases hn : e.fault.number? with _ | n
  · rw [Fault.relabel_eq_self hn]
  · obtain ⟨cs, hcs⟩ := Fault.template_number hn
    have hmark : e.fault.template.toList.head? ≠ some '%' := by simp [hcs]
    have hmark' : (e.fault.relabel r).template.toList.head? ≠ some '%' := by rwa [Fault.template_relabel]
    rw [number_message _ hmark, number_message _ hmark', Fault.number?_relabel]

/-! ## Renamed programs -/

open Typing

/-- What a check makes of a renamed program is what it makes of the program, renamed. -/
structure Renaming.Commutes (ρ : Renaming) (options : Options) (p : Program) : Prop where
  /-- The renaming reaches every name of the program. -/
  named : AllNamed p.entries
  parsed : (p.relabel ρ.relabelling).arena = p.arena.relabel ρ.relabelling p.arena.decls.size
  /-- The nodes of the program have other names, and the library functions, which are behind them, do not. -/
  checked : (check options (p.relabel ρ.relabelling)).1.arena =
    (check options p).1.arena.relabel ρ.relabelling p.arena.decls.size
  errors : (check options (p.relabel ρ.relabelling)).2 = (check options p).2.map (Error.relabel ρ.relabelling)
  codes : ∀ e ∈ (check options p).2, (e.relabel ρ.relabelling).span = e.span ∧
    (e.relabel ρ.relabelling).diagnostic.code? = e.diagnostic.code?

/-- Names do not matter: what was parsed and renamed is checked as if it had not been renamed, and what comes of it is
renamed. The flat form is the same but for the names of its own nodes, and the same faults are reported in the same
order at the same places, with the same codes, and with other names in what they quote. -/
theorem check_renamed {source : String} {p : Program} (h : (parse source).result = .ok p) (ρ : Renaming)
    (options : Options) : ρ.Commutes options p := by
  obtain ⟨hplain, hnumbered⟩ := parse_built h
  have hcomplete := hnumbered.complete
  have hcheck := check_relabel ρ.relabelling options p
  obtain ⟨hown, hlibrary⟩ := declIds_check options hplain hnumbered
  constructor
  · exact parse_allNamed h
  · refine Program.relabel_arena hcomplete ?_ ?_
    · intro i hi
      rw [← hplain.entries_eq, hnumbered.decls, List.mem_range] at hi
      exact hi.trans_eq (size_place _).symm
    · rw [hplain.predeclared]
      exact List.forall_mem_nil _
  · rw [hcheck]
    exact Program.relabel_arena (complete_check options hcomplete) hown hlibrary
  · rw [hcheck]
  · exact fun e _ => ⟨rfl, e.code?_relabel _⟩

/-- Two names change places, in a program with a mistake that quotes one of them and with a call of `main`. -/
theorem check_renamed_swap : ∃ source p, ∃ ρ : Renaming, (parse source).result = .ok p ∧ ρ.spelling "x" = "y" ∧
    ρ.spelling "y" = "x" ∧ ρ.Commutes .standard p := by
  have hidentifier (c : Char) (hc : isWordStart c = true) (hword : ∀ k, (String.ofList [c], k) ∉ TokenKind.reserved) :
      IsIdentifier (String.ofList [c]) := by
    rw [IsIdentifier, String.toList_ofList]
    exact .ident hc (List.forall_mem_nil _) hword
  let x : Identifier := ⟨"x", hidentifier 'x' (by decide) (by simp [TokenKind.reserved])⟩
  let y : Identifier := ⟨"y", hidentifier 'y' (by decide) (by simp [TokenKind.reserved])⟩
  have hfixed (i : Identifier) (hx : i.1 ≠ "x") (hy : i.1 ≠ "y") : Equiv.swap x y i = i :=
    Equiv.swap_apply_of_ne_of_ne (fun h => hx (congrArg Subtype.val h)) fun h => hy (congrArg Subtype.val h)
  let ρ : Renaming := {
    name := Equiv.swap x y
    name_injective := (Equiv.swap x y).injective
    name_main := fun i hi => hfixed i (by rw [hi]; decide) (by rw [hi]; decide)
    name_library := fun i e he hi => hfixed i
      (by rw [hi]; exact (by decide : ∀ e ∈ Library.entries, e.name ≠ "x") e he)
      (by rw [hi]; exact (by decide : ∀ e ∈ Library.entries, e.name ≠ "y") e he) }
  let source := "int x(int y){return y + z;} int main(){x(y, 1); main(); return true;}"
  have hparses : (parse source).result.isOk = true := by decide +kernel
  obtain ⟨p, hp⟩ := exists_of_isOk hparses
  refine ⟨source, p, ρ, hp, ?_, ?_, check_renamed hp ρ .standard⟩
  · rw [Renaming.spelling_of x.2]
    exact congrArg Subtype.val (Equiv.swap_apply_left x y)
  · rw [Renaming.spelling_of y.2]
    exact congrArg Subtype.val (Equiv.swap_apply_right x y)

end VCLang
