/-
Parsing undoes printing: the text of a program that was parsed is parsed without reports, as a tree that differs
from the program in spans only. What is printed are legible words, a scan finds these words in their text, and a
parse reads them as the tree they were made of.
-/
import VCLang.Proofs.Grammar.Reports
import VCLang.Proofs.Printing.Source
namespace VCLang

/-! ## What is written is legible -/

/-- All of some words are legible. -/
def LegibleAll (ws : List Word) : Prop := ∀ w ∈ ws, w.Legible

namespace LegibleAll

variable {α : Type} {w : Word} {ws vs : List Word}

@[simp] theorem nil : LegibleAll [] := List.forall_mem_nil _

@[simp] theorem cons_iff : LegibleAll (w :: ws) ↔ w.Legible ∧ LegibleAll ws := List.forall_mem_cons

@[simp] theorem append_iff : LegibleAll (ws ++ vs) ↔ LegibleAll ws ∧ LegibleAll vs := List.forall_mem_append

@[simp] theorem flatMap_iff {f : α → List Word} {as : List α} :
    LegibleAll (as.flatMap f) ↔ ∀ a ∈ as, LegibleAll (f a) := List.forall_mem_flatMap

@[simp] theorem parenthesised_iff : LegibleAll (Word.parenthesised ws) ↔ LegibleAll ws := by
  simp (disch := decide) [Word.parenthesised]

@[simp] theorem parenthesisedIf_iff {needed : Bool} :
    LegibleAll (Word.parenthesisedIf needed ws) ↔ LegibleAll ws := by
  cases needed
  · rfl
  · exact parenthesised_iff

theorem separated {wss : List (List Word)} (h : ∀ ws ∈ wss, LegibleAll ws) : LegibleAll (Word.separated wss) := by
  cases wss with
  | nil => exact nil
  | cons ws wss => simpa (disch := decide) [Word.separated] using h

end LegibleAll

open TokenKind

theorem Operator.IsInfix.legible {op : Operator} (h : op.IsInfix) : op.word.Legible := by
  obtain ⟨k, q, hk, hs⟩ := h
  rw [word_eq hs]
  refine legible_word ?_
  revert hk
  cases k <;> first | exact fun _ => rfl | rintro ⟨⟩

theorem Operator.IsSign.legible {op : Operator} (h : op.IsSign) : op.word.Legible := by
  obtain ⟨k, hk, hs⟩ := h
  rw [word_eq hs]
  refine legible_word ?_
  revert hk
  cases k <;> decide

theorem Expr.Written.legible {e : Expr} (h : e.Written) : LegibleAll e.words := by
  induction h with
  | binary hop _ _ ihl ihr => simp [words, hop.legible, ihl, ihr]
  | unary hop _ ih => simp [words, hop.legible, ih]
  | assign _ _ iht ihv => simp (disch := decide) [words, iht, ihv]
  | var hident => simp [words, hident]
  | arrayAccess hident _ ih => simp (disch := decide) [words, hident, ih]
  | call hident _ ih =>
    rw [words, wordsEach_eq, LegibleAll.cons_iff, LegibleAll.parenthesised_iff]
    exact ⟨hident, .separated (List.forall_mem_map.2 ih)⟩
  | literal hvalue => simp [words, hvalue]

theorem Expr.legible_wordsOption {o : Option Expr} (h : ∀ e ∈ o, e.Written) : LegibleAll (Expr.wordsOption o) := by
  cases o with
  | none => exact .nil
  | some e => exact (h e rfl).legible

theorem Expr.WrittenInit.legible {e : Expr} (h : e.WrittenInit) : LegibleAll e.words := by
  cases h with
  | expr h => exact h.legible
  | @list _ elements _ h =>
    have helements : LegibleAll (Word.separated (elements.map words)) :=
      .separated (List.forall_mem_map.2 fun e he => (h e he).legible)
    simp (disch := decide) [words, wordsEach_eq, helements]

theorem Ty.Named.legible {t : Ty} (h : t.Named) : t.word.Legible := by
  obtain ⟨k, hk⟩ := h
  rw [word_eq hk]
  refine legible_word ?_
  revert hk
  cases k <;> first | exact fun _ => rfl | rintro ⟨⟩

theorem legible_declarator {ty : Ty} {ident : Ident} (hty : ty.Written) (hident : ident.word.Legible) :
    LegibleAll (declarator ty ident) := by
  have hword := hty.base.legible
  rw [ty.word_base] at hword
  have hsuffix : LegibleAll ty.suffix := by
    rcases ty with _ | _ | _ | _ | _ | ⟨element, _ | n⟩ | _ <;>
      simp (disch := decide) [Ty.suffix]
  simp [declarator, hword, hident, hsuffix]

theorem VarDecl.Written.legible {d : VarDecl} (h : d.Written) : LegibleAll d.words := by
  have hinit : LegibleAll (initWords d.init) := by
    rcases hd : d.init with _ | e
    · exact .nil
    · simp (disch := decide) [initWords, (h.init e hd).legible]
  simp (disch := decide) [words, legible_declarator h.ty h.ident, hinit]

theorem Stmt.Written.legible {s : Stmt} (h : s.Written) : LegibleAll s.words := by
  induction h with
  | compound hdecls _ ih =>
    simpa (disch := decide) [words, wordsAll_eq] using ⟨fun d hd => (hdecls d hd).1.legible, ih⟩
  | ifThen hcond _ ih => simp (disch := decide) [words, hcond.legible, ih]
  | ifElse hcond _ _ _ iht ihe => simp (disch := decide) [words, hcond.legible, iht, ihe]
  | whileStmt hcond _ ih => simp (disch := decide) [words, hcond.legible, ih]
  | forStmt hinit hcond hupdate _ ih =>
    have hinit := Expr.legible_wordsOption hinit
    have hcond := Expr.legible_wordsOption hcond
    have hupdate := Expr.legible_wordsOption hupdate
    simp (disch := decide) [words, hinit, hcond, hupdate, ih]
  | breakStmt => simp (disch := decide) [words]
  | continueStmt => simp (disch := decide) [words]
  | returnStmt hvalue => simp (disch := decide) [words, Expr.legible_wordsOption hvalue]
  | exprStmt hexpr => simp (disch := decide) [words, hexpr.legible]
  | emptyStmt => simp (disch := decide) [words]

theorem Function.Written.legible {f : Function} (h : f.Written) : LegibleAll f.words := by
  have hparams : LegibleAll (Word.separated (f.params.map Param.words)) :=
    .separated (List.forall_mem_map.2 fun p hp => legible_declarator (h.params p hp).ty (h.params p hp).ident)
  simp [words, h.ty.legible, h.ident, hparams, h.body.legible]

theorem TopDecl.Written.legible {d : TopDecl} (h : d.Written) : LegibleAll d.words := by
  cases h with
  | func h => exact h.legible
  | var h _ => exact h.legible

theorem Program.legible_words {p : Program} (h : ∀ d ∈ p.decls, d.Written) : LegibleAll p.words :=
  LegibleAll.flatMap_iff.2 fun d hd => (h d hd).legible

/-! ## Round trip -/

/-- The words before a parser at the first token of a printed program are those of the program. -/
theorem words_print {p : Program} (h : ∀ d ∈ p.decls, d.Written) :
    (Parser.ofString p.print).words = p.words ++ [eof.word] := by
  rw [Parser.words, tokens_ofString, tokenize, List.map_map]
  exact (lexemes_textAll (Program.legible_words h)).1

/-- A printed program is parsed as a tree that is written with the same words. -/
theorem parse_print_bare {p : Program} (h : ∀ d ∈ p.decls, d.Written) :
    ∃ p', (parse p.print).result = .ok p' ∧ p'.decls.map TopDecl.bare = p.decls.map TopDecl.bare := by
  have hwords := words_print h
  obtain ⟨p', q, hy, -, hbare⟩ := Grammar.takes_program (n := (Parser.ofString p.print).words.length) h
    (Parser.ofString p.print) [eof.word] hwords (Nat.le_refl _) rfl
  refine ⟨p', ?_, hbare⟩
  unfold parse
  rw [hy]

/-- The text of a printed program is scanned without reports. -/
theorem tokenize_print {p : Program} (h : ∀ d ∈ p.decls, d.Written) : (tokenize p.print).2 = [] := by
  rw [tokenize, List.flatMap_eq_nil_iff]
  exact (lexemes_textAll (Program.legible_words h)).2

/-- Where a program is parsed, nothing is reported but what is wrong with the characters of the text. -/
theorem ParseReports.errors_eq {source : String} {parsed : Parsed} {p : Program} (h : ParseReports source parsed)
    (hresult : parsed.result = .ok p) : parsed.errors = (tokenize source).2 := by
  cases h with
  | ok => rfl
  | error => cases hresult

/-- Parsing undoes printing: what was parsed is printed as a text that is parsed without reports, and the nodes of
both programs are the same in the same order, but for their spans. -/
theorem parse_print {source : String} {p : Program} (h : (parse source).result = .ok p) :
    ∃ p', (parse p.print).result = .ok p' ∧ (parse p.print).errors = [] ∧
      p'.arena.unspanned = p.arena.unspanned := by
  have hwritten := parse_written h
  obtain ⟨p', hresult, hbare⟩ := parse_print_bare hwritten
  refine ⟨p', hresult, ?_, ?_⟩
  · rw [(parseReports p.print).errors_eq hresult]
    exact tokenize_print hwritten
  · obtain ⟨hplain, hlaid⟩ := parse_laid h
    obtain ⟨hplain', hlaid'⟩ := parse_laid hresult
    exact Program.arena_unspanned_eq hlaid' hlaid hplain' hplain hbare

theorem exists_printed {source text : String} (h : (parse source).result.toOption.map Program.print = some text) :
    ∃ p, (parse source).result = .ok p ∧ p.print = text := by
  obtain ⟨p, hp, hprint⟩ := Option.map_eq_some_iff.1 h
  refine ⟨p, ?_, hprint⟩
  cases hr : (parse source).result with
  | error => rw [hr] at hp; cases hp
  | ok p' => rw [hr] at hp; cases hp; rfl

/-- An `else` with its own `if`, an assignment as a target, one sign behind another, an operand on the right that
needs parentheses, and a list of variables. -/
theorem parse_print_nested :
    ∃ p, ((parse ("int a, b[02] = \x7b1, -a\x7d;\n" ++
        "int f(int x) \x7b if (a) if (x) ; else (a = x) = - -a - (1 - x); return \"q\\\"\"; \x7d")).result = .ok p ∧
      p.print = "int a ; int b [ 2 ] = \x7b 1 , - a \x7d ; int f ( int x ) \x7b if ( a ) if ( x ) ; " ++
        "else ( a = x ) = - - a - ( 1 - x ) ; return \"q\\\"\" ; \x7d ") ∧
    ∃ p', (parse p.print).result = .ok p' ∧ (parse p.print).errors = [] ∧ p'.arena.unspanned = p.arena.unspanned := by
  refine Exists.imp (fun p hp => ⟨hp, parse_print hp.1⟩) (exists_printed ?_)
  decide +kernel

end VCLang
