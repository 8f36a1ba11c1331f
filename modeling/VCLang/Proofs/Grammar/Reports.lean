/-
What a parse reports. A step that succeeds reports what is wrong with the lexemes it scans and nothing else; one
that fails adds a single syntax error, at the token it stops at. So a text with a program is reported on as its
tokens are, and a compilation has a result exactly if nothing was reported.
-/
import VCLang.Compile
import VCLang.Proofs.Grammar.Recognition
import VCLang.Proofs.Token.Faults
namespace VCLang

variable {α β : Type} {p q r : Parser} {ls ls' : List Lexeme}

/-! ## Scanning -/

namespace Parser

/-- A parser has scanned some lexemes, the last of which it looks at; if there are none, it looks at the token
from before. -/
structure Scans (p : Parser) (ls : List Lexeme) (q : Parser) : Prop where
  upcoming : p.upcoming = ls ++ q.upcoming
  last : ∃ w, p.current :: ls.map Lexeme.token = w ++ [q.current]

theorem Scans.stay (hcurrent : q.current = p.current) (hupcoming : q.upcoming = p.upcoming) : p.Scans [] q :=
  ⟨hupcoming.symm, [], by rw [hcurrent]; rfl⟩

theorem Scans.trans (h : p.Scans ls q) (h' : q.Scans ls' r) : p.Scans (ls ++ ls') r := by
  obtain ⟨w, hw⟩ := h.last
  obtain ⟨w', hw'⟩ := h'.last
  refine ⟨by rw [h.upcoming, h'.upcoming, List.append_assoc], w ++ w', ?_⟩
  rw [List.map_append, ← List.cons_append, hw, List.append_assoc, List.singleton_append, hw', List.append_assoc]

/-- A parser that has scanned some lexemes has moved past as many tokens. -/
theorem Scans.tokens (h : p.Scans ls q) : ∃ w, p.tokens = w ++ q.tokens := by
  obtain ⟨w, hw⟩ := h.last
  refine ⟨w, ?_⟩
  rw [Parser.tokens, Parser.tokens, h.upcoming, List.map_append, ← List.cons_append, hw, List.append_assoc,
    List.singleton_append]

end Parser

/-! ## The reports of a step -/

/-- A syntax error says of a token what is wrong with it. -/
inductive Fault.Concerns (t : Token) : Fault → Prop
  | tokenExpected {k : TokenKind} : t.kind ≠ k → Concerns t (.tokenExpected k)
  | identifierExpected : t.kind ≠ .ident → Concerns t .identifierExpected
  | typeExpected : t.kind.isType = false → Concerns t .typeExpected
  | illegalPrimaryExpression : Concerns t (.illegalPrimaryExpression t.spelling)
  | invalidArraySize : t.kind = .intLiteral → Concerns t (.invalidArraySize t.spelling)

theorem Fault.Concerns.isSyntaxError {t : Token} {f : Fault} (h : f.Concerns t) : f.isSyntaxError = true := by
  cases h <;> rfl

/-- What is reported by a step from `p`, by its outcome. -/
inductive Reports (p : Parser) : Except Error α × Parser → Prop
  | ok {a : α} {q : Parser} {ls : List Lexeme} : p.Scans ls q → q.errors = p.errors ++ ls.flatMap Lexeme.errors →
    Reports p (.ok a, q)
  | error {f : Fault} {q : Parser} {ls : List Lexeme} : p.Scans ls q → f.Concerns q.current →
    q.errors = p.errors ++ ls.flatMap Lexeme.errors ++ [q.errorHere f] → Reports p (.error (q.errorHere f), q)

/-- A step reports one syntax error if it fails and none if it succeeds, wherever it begins. -/
def Parse.ReportsOnce (m : Parse α) : Prop := ∀ p, Reports p (m p)

namespace Parse

variable {m : Parse α}

/-- A step that stays where it is and reports nothing. -/
theorem reportsOnce_of_stay
    (h : ∀ p, ∃ a q, m p = (.ok a, q) ∧ q.current = p.current ∧ q.upcoming = p.upcoming ∧ q.errors = p.errors) :
    m.ReportsOnce := by
  intro p
  obtain ⟨a, q, hm, hcurrent, hupcoming, herrors⟩ := h p
  rw [hm]
  exact .ok (.stay hcurrent hupcoming) (by rw [herrors]; exact (List.append_nil _).symm)

theorem reportsOnce_pure (a : α) : (pure a : Parse α).ReportsOnce :=
  reportsOnce_of_stay fun _ => ⟨_, _, rfl, rfl, rfl, rfl⟩

theorem reportsOnce_current : current.ReportsOnce := reportsOnce_of_stay fun _ => ⟨_, _, rfl, rfl, rfl, rfl⟩

theorem reportsOnce_kind : kind.ReportsOnce := reportsOnce_of_stay fun _ => ⟨_, _, rfl, rfl, rfl, rfl⟩

theorem reportsOnce_start : start.ReportsOnce := reportsOnce_of_stay fun _ => ⟨_, _, rfl, rfl, rfl, rfl⟩

theorem reportsOnce_spanFrom (s : Position) : (spanFrom s).ReportsOnce :=
  reportsOnce_of_stay fun _ => ⟨_, _, rfl, rfl, rfl, rfl⟩

theorem reportsOnce_newExpr (build : ExprInfo → Expr) (span : Span) : (newExpr build span).ReportsOnce :=
  reportsOnce_of_stay fun _ => ⟨_, _, rfl, rfl, rfl, rfl⟩

theorem reportsOnce_newStmt (build : StmtInfo → Stmt) (span : Span) : (newStmt build span).ReportsOnce :=
  reportsOnce_of_stay fun _ => ⟨_, _, rfl, rfl, rfl, rfl⟩

theorem reportsOnce_newDecl (kind : DeclKind) (ident : Ident) (ty : Ty) (span : Span) :
    (newDecl kind ident ty span).ReportsOnce :=
  reportsOnce_of_stay fun _ => ⟨_, _, rfl, rfl, rfl, rfl⟩

/-- Of two steps the second goes on with what the first has scanned, or does not begin. -/
theorem ReportsOnce.bind {f : α → Parse β} (hm : m.ReportsOnce) (hf : ∀ a, (f a).ReportsOnce) :
    (m >>= f).ReportsOnce := by
  intro p
  have hfirst := hm p
  rw [bind_apply]
  generalize m p = o at hfirst
  cases hfirst with
  | error hscans hconcerns herrors => exact .error hscans hconcerns herrors
  | @ok a q ls hscans herrors =>
    have hsecond := hf a q
    change Reports p (f a q)
    generalize f a q = o at hsecond
    cases hsecond with
    | ok hscans' herrors' =>
      exact .ok (hscans.trans hscans') (by rw [herrors', herrors, List.flatMap_append, List.append_assoc])
    | error hscans' hconcerns herrors' =>
      refine .error (hscans.trans hscans') hconcerns ?_
      rw [herrors', herrors, List.flatMap_append, List.append_assoc p.errors]

theorem ReportsOnce.map {f : α → β} (hm : m.ReportsOnce) : (f <$> m).ReportsOnce :=
  hm.bind fun a => reportsOnce_pure (f a)

theorem ReportsOnce.ite {c : Prop} [Decidable c] {m' : Parse α} (hm : m.ReportsOnce) (hm' : m'.ReportsOnce) :
    (if c then m else m').ReportsOnce := by
  split_ifs
  · exact hm
  · exact hm'

/-! ## Single steps -/

theorem reportsOnce_advance : advance.ReportsOnce := by
  intro p
  change Reports p (.ok p.current, p.advance)
  unfold Parser.advance
  split
  · exact .ok (.stay rfl rfl) (List.append_nil _).symm
  · rename_i l ls hl
    have hscans : p.Scans [l] ⟨l.token, ls, p.current.span.stop, p.arena, p.errors ++ l.errors⟩ :=
      ⟨hl, [p.current], rfl⟩
    exact .ok hscans (by rw [List.flatMap_singleton])

/-- A step that fails at once, with a fault of the token that is looked at. -/
theorem reports_fail {f : Fault} (h : f.Concerns p.current) : Reports p ((fail f : Parse α) p) := by
  let q : Parser := { p with errors := p.errors ++ [p.errorHere f] }
  have hscans : p.Scans [] q := .stay rfl rfl
  exact .error hscans h (by rw [List.flatMap_nil, List.append_nil]; rfl)

theorem reportsOnce_illegalPrimary : (illegalPrimary : Parse α).ReportsOnce :=
  fun _ => reports_fail .illegalPrimaryExpression

theorem reportsOnce_expect (k : TokenKind) : (expect k).ReportsOnce := by
  intro p
  change Reports p ((if p.current.kind = k then advance else fail (.tokenExpected k)) p)
  split_ifs with hk
  · exact reportsOnce_advance p
  · exact reports_fail (.tokenExpected hk)

theorem reportsOnce_expectIdent : expectIdent.ReportsOnce := by
  intro p
  change Reports p ((if p.current.kind = .ident then advance >>= _ else fail .identifierExpected : Parse Ident) p)
  split_ifs with hk
  · exact (reportsOnce_advance.bind fun _ => reportsOnce_pure _) p
  · exact reports_fail (.identifierExpected hk)

/-! ## Repetitions -/

theorem ReportsOnce.manyUpTo {test : TokenKind → Bool} (h : m.ReportsOnce) (n : Nat) :
    (manyUpTo test m n).ReportsOnce := by
  induction n with
  | zero => exact reportsOnce_pure []
  | succ n ih =>
    refine reportsOnce_kind.bind fun k => .ite ?_ (reportsOnce_pure [])
    exact h.bind fun _ => ih.bind fun _ => reportsOnce_pure _

theorem ReportsOnce.many {test : TokenKind → Bool} (h : m.ReportsOnce) : (many test m).ReportsOnce :=
  fun p => h.manyUpTo (p.remaining + 1) p

theorem ReportsOnce.commaList (h : m.ReportsOnce) : (commaList m).ReportsOnce := by
  refine h.bind fun _ => ?_
  refine (ReportsOnce.many (reportsOnce_advance.bind fun _ => h)).bind fun _ => ?_
  exact reportsOnce_pure _

theorem ReportsOnce.parenthesised (h : m.ReportsOnce) : (parenthesised m).ReportsOnce := by
  have hclose (as : List α) : (expect .rParen >>= fun _ => pure as).ReportsOnce :=
    (reportsOnce_expect _).bind fun _ => reportsOnce_pure _
  refine (reportsOnce_expect _).bind fun _ => reportsOnce_kind.bind fun _ => .ite ?_ ?_
  · exact (reportsOnce_pure []).bind hclose
  · exact h.commaList.bind hclose

end Parse

/-! ## The grammar -/

namespace Grammar

open Parse

variable {d : Dispatch} {expr : Power → Parse Expr} {stmt : Parse Stmt}

theorem reportsOnce_nameForm (h : ∀ power, (expr power).ReportsOnce) : (nameForm expr).ReportsOnce := by
  refine reportsOnce_start.bind fun _ => reportsOnce_expectIdent.bind fun _ => reportsOnce_kind.bind fun k => ?_
  split
  · refine (h .lowest).parenthesised.bind fun _ => (reportsOnce_spanFrom _).bind fun _ => ?_
    exact reportsOnce_newExpr _ _
  · refine reportsOnce_advance.bind fun _ => (h .lowest).bind fun _ => (reportsOnce_expect _).bind fun _ => ?_
    exact (reportsOnce_spanFrom _).bind fun _ => reportsOnce_newExpr _ _
  · exact (reportsOnce_spanFrom _).bind fun _ => reportsOnce_newExpr _ _

theorem reportsOnce_operand (h : ∀ power, (expr power).ReportsOnce) (form : OperandForm) :
    (operand expr form).ReportsOnce := by
  cases form with
  | literal => exact reportsOnce_advance.bind fun _ => reportsOnce_newExpr _ _
  | sign => exact reportsOnce_advance.bind fun _ => (h .unary).bind fun _ => reportsOnce_newExpr _ _
  | name => exact reportsOnce_nameForm h
  | group =>
    refine reportsOnce_advance.bind fun _ => (h .lowest).bind fun _ => (reportsOnce_expect _).bind fun _ => ?_
    exact reportsOnce_pure _

theorem reportsOnce_continueWith (h : ∀ power, (expr power).ReportsOnce) (power : Power) (left : Expr)
    (form : InfixForm) : (continueWith expr power left form).ReportsOnce := by
  cases form with
  | binary => exact reportsOnce_advance.bind fun _ => (h power).bind fun _ => reportsOnce_newExpr _ _
  | assignment => exact reportsOnce_advance.bind fun _ => (h .lowest).bind fun _ => reportsOnce_newExpr _ _

theorem reportsOnce_extendUpTo (h : ∀ power, (expr power).ReportsOnce) (power : Power) (n : Nat) :
    ∀ left, (extendUpTo d expr power n left).ReportsOnce := by
  induction n with
  | zero => exact fun left => reportsOnce_pure left
  | succ n ih =>
    intro left
    refine reportsOnce_kind.bind fun k => ?_
    split
    · exact reportsOnce_pure left
    · refine .ite ?_ (reportsOnce_pure left)
      exact (reportsOnce_continueWith h _ left _).bind ih

theorem reportsOnce_expressionUpTo (n : Nat) : ∀ power, (expressionUpTo d n power).ReportsOnce := by
  induction n with
  | zero => exact fun _ => reportsOnce_illegalPrimary
  | succ n ih =>
    intro power
    refine reportsOnce_kind.bind fun k => ?_
    split
    · exact reportsOnce_illegalPrimary
    · refine (reportsOnce_operand ih _).bind fun left => ?_
      exact fun p => reportsOnce_extendUpTo ih power p.remaining left p

theorem reportsOnce_expression (d : Dispatch) (power : Power) : (expression d power).ReportsOnce :=
  fun p => reportsOnce_expressionUpTo (p.remaining + 1) power p

/-! ### Declarations -/

theorem reportsOnce_typeName : typeName.ReportsOnce := by
  intro p
  unfold typeName
  rw [kind_bind]
  have htype := baseType?_isSome p.current.kind
  generalize baseType? p.current.kind = t at htype ⊢
  rcases t with _ | t
  · exact reports_fail (.typeExpected htype.symm)
  · exact (reportsOnce_advance.bind fun _ => reportsOnce_pure _) p

theorem reportsOnce_arraySize : arraySize.ReportsOnce := by
  intro p
  unfold arraySize
  rw [kind_bind]
  split_ifs with hk
  · rw [current_bind]
    rcases boundedDecimal? maxArraySize p.current.spelling.toList with _ | n
    · exact reports_fail (.invalidArraySize hk)
    · exact (reportsOnce_advance.bind fun _ => reportsOnce_pure _) p
  · exact reportsOnce_pure none p

theorem reportsOnce_declaratorSuffix (base : Ty) : (declaratorSuffix base).ReportsOnce := by
  refine reportsOnce_kind.bind fun _ => .ite ?_ (reportsOnce_pure base)
  refine reportsOnce_advance.bind fun _ => reportsOnce_arraySize.bind fun _ => (reportsOnce_expect _).bind fun _ => ?_
  exact reportsOnce_pure _

theorem reportsOnce_initialiser (d : Dispatch) : (initialiser d).ReportsOnce := by
  refine reportsOnce_kind.bind fun _ => .ite ?_ (reportsOnce_expression d _)
  refine reportsOnce_advance.bind fun _ => (reportsOnce_expression d _).commaList.bind fun _ => ?_
  refine (reportsOnce_expect _).bind fun _ => (reportsOnce_spanFrom _).bind fun _ => ?_
  exact reportsOnce_newExpr _ _

theorem reportsOnce_initDeclarator (d : Dispatch) (start : Position) (base : Ty) (ident : Ident) (isGlobal : Bool) :
    (initDeclarator d start base ident isGlobal).ReportsOnce := by
  refine (reportsOnce_declaratorSuffix base).bind fun ty => reportsOnce_kind.bind fun _ => ?_
  have hrest (init : Option Expr) : (do
      let span ← spanFrom start
      let decl : VarDecl := ⟨⟨0⟩, ident, ty, span, isGlobal, init⟩
      let id ← newDecl decl.kind ident ty span
      return { decl with id } : Parse VarDecl).ReportsOnce :=
    (reportsOnce_spanFrom _).bind fun _ => (reportsOnce_newDecl _ _ _ _).bind fun _ => reportsOnce_pure _
  refine .ite ?_ ?_
  · exact reportsOnce_advance.bind fun _ => (reportsOnce_initialiser d).map.bind hrest
  · exact (reportsOnce_pure none).bind hrest

theorem reportsOnce_varDecls (d : Dispatch) (start : Position) (base : Ty) (first : Ident) (isGlobal : Bool) :
    (varDecls d start base first isGlobal).ReportsOnce := by
  refine (reportsOnce_initDeclarator d _ _ _ _).bind fun _ => ?_
  refine (ReportsOnce.many ?_).bind fun _ => (reportsOnce_expect _).bind fun _ => reportsOnce_pure _
  refine reportsOnce_advance.bind fun _ => reportsOnce_start.bind fun _ => reportsOnce_expectIdent.bind fun _ => ?_
  exact reportsOnce_initDeclarator d _ _ _ _

theorem reportsOnce_param : param.ReportsOnce := by
  refine reportsOnce_start.bind fun _ => reportsOnce_typeName.bind fun _ => reportsOnce_expectIdent.bind fun _ => ?_
  refine (reportsOnce_declaratorSuffix _).bind fun _ => (reportsOnce_spanFrom _).bind fun _ => ?_
  exact (reportsOnce_newDecl _ _ _ _).bind fun _ => reportsOnce_pure _

/-! ### Statements -/

theorem reportsOnce_finish (start : Position) (build : StmtInfo → Stmt) : (finish start build).ReportsOnce :=
  (reportsOnce_spanFrom _).bind fun _ => reportsOnce_newStmt _ _

theorem reportsOnce_localDecls (d : Dispatch) : (localDecls d).ReportsOnce := by
  refine reportsOnce_start.bind fun _ => reportsOnce_typeName.bind fun _ => reportsOnce_expectIdent.bind fun _ => ?_
  exact reportsOnce_varDecls d _ _ _ _

theorem reportsOnce_blockWith (d : Dispatch) (h : stmt.ReportsOnce) : (blockWith d stmt).ReportsOnce := by
  refine (reportsOnce_expect _).bind fun _ => (reportsOnce_localDecls d).many.bind fun _ => h.many.bind fun _ => ?_
  exact (reportsOnce_expect _).bind fun _ => (reportsOnce_finish _ _).bind fun _ => reportsOnce_pure _

theorem reportsOnce_condition (d : Dispatch) : (condition d).ReportsOnce := by
  refine (reportsOnce_expect _).bind fun _ => (reportsOnce_expression d _).bind fun _ => ?_
  exact (reportsOnce_expect _).bind fun _ => reportsOnce_pure _

theorem reportsOnce_optionalExpr (d : Dispatch) (terminator : TokenKind) :
    (optionalExpr d terminator).ReportsOnce := by
  have hrest (e : Option Expr) : (expect terminator >>= fun _ => pure e).ReportsOnce :=
    (reportsOnce_expect _).bind fun _ => reportsOnce_pure _
  refine reportsOnce_kind.bind fun _ => .ite ?_ ?_
  · exact (reportsOnce_pure none).bind hrest
  · exact (reportsOnce_expression d _).map.bind hrest

theorem reportsOnce_statementForm (d : Dispatch) (h : stmt.ReportsOnce) (form : StmtForm) :
    (statementForm d stmt form).ReportsOnce := by
  cases form with
  | block => exact (reportsOnce_blockWith d h).map
  | ifForm =>
    refine reportsOnce_advance.bind fun _ => (reportsOnce_condition d).bind fun _ => h.bind fun _ => ?_
    refine reportsOnce_kind.bind fun _ => .ite ?_ (reportsOnce_finish _ _)
    exact reportsOnce_advance.bind fun _ => h.bind fun _ => reportsOnce_finish _ _
  | whileForm =>
    refine reportsOnce_advance.bind fun _ => (reportsOnce_condition d).bind fun _ => h.bind fun _ => ?_
    exact reportsOnce_finish _ _
  | forForm =>
    refine reportsOnce_advance.bind fun _ => (reportsOnce_expect _).bind fun _ => ?_
    refine (reportsOnce_optionalExpr d _).bind fun _ => (reportsOnce_optionalExpr d _).bind fun _ => ?_
    exact (reportsOnce_optionalExpr d _).bind fun _ => h.bind fun _ => reportsOnce_finish _ _
  | breakForm | continueForm =>
    exact reportsOnce_advance.bind fun _ => (reportsOnce_expect _).bind fun _ => reportsOnce_finish _ _
  | returnForm =>
    exact reportsOnce_advance.bind fun _ => (reportsOnce_optionalExpr d _).bind fun _ => reportsOnce_finish _ _
  | emptyForm => exact reportsOnce_advance.bind fun _ => reportsOnce_finish _ _

theorem reportsOnce_exprStatement (d : Dispatch) : (exprStatement d).ReportsOnce := by
  refine reportsOnce_start.bind fun _ => (reportsOnce_expression d _).bind fun _ => ?_
  exact (reportsOnce_expect _).bind fun _ => reportsOnce_finish _ _

theorem reportsOnce_statementUpTo (d : Dispatch) (n : Nat) : (statementUpTo d n).ReportsOnce := by
  induction n with
  | zero => exact reportsOnce_illegalPrimary
  | succ n ih =>
    refine reportsOnce_kind.bind fun k => ?_
    split
    · exact reportsOnce_statementForm d ih _
    · exact reportsOnce_exprStatement d

theorem reportsOnce_statement (d : Dispatch) : (statement d).ReportsOnce :=
  fun p => reportsOnce_statementUpTo d (p.remaining + 1) p

theorem reportsOnce_block (d : Dispatch) : (block d).ReportsOnce := reportsOnce_blockWith d (reportsOnce_statement d)

/-! ### Programs -/

theorem reportsOnce_function (d : Dispatch) (start : Position) (ty : Ty) (ident : Ident) :
    (function d start ty ident).ReportsOnce := by
  refine reportsOnce_param.parenthesised.bind fun _ => (reportsOnce_block d).bind fun _ => ?_
  exact (reportsOnce_spanFrom _).bind fun _ => (reportsOnce_newDecl _ _ _ _).bind fun _ => reportsOnce_pure _

theorem reportsOnce_topLevel (d : Dispatch) : (topLevel d).ReportsOnce := by
  refine reportsOnce_start.bind fun _ => reportsOnce_typeName.bind fun _ => reportsOnce_expectIdent.bind fun _ => ?_
  refine reportsOnce_kind.bind fun _ => .ite ?_ ?_
  · exact (reportsOnce_function d _ _ _).bind fun _ => reportsOnce_pure _
  · exact (reportsOnce_varDecls d _ _ _ _).bind fun _ => reportsOnce_pure _

theorem reportsOnce_program (d : Dispatch) : (program d).ReportsOnce := by
  refine reportsOnce_start.bind fun _ => (reportsOnce_topLevel d).many.bind fun _ => ?_
  exact reportsOnce_current.bind fun _ => reportsOnce_pure _

end Grammar

/-! ## Texts -/

/-- A parser at the first token of a text has scanned its first lexeme. -/
theorem exists_ofString (source : String) :
    ∃ l ls, lexemes source = l :: ls ∧ Parser.ofString source = ⟨l.token, ls, .first, .empty, l.errors⟩ := by
  have htokens : (tokenize source).1 = (lexemes source).map Lexeme.token := rfl
  unfold Parser.ofString
  rcases hl : lexemes source with _ | ⟨l, ls⟩
  · obtain ⟨front, hfront, -⟩ := (lexemes_cut source).eof_last
    rw [htokens, hl, List.map_nil] at hfront
    exact absurd (congrArg List.length hfront) (by simp)
  · exact ⟨l, ls, rfl, rfl⟩

/-- What is reported by a parse, by its result: what is wrong with the characters of the text, of all of it if
there is a program, and otherwise up to the token of the one syntax error, which is the last report. -/
inductive ParseReports (source : String) : Parsed → Prop
  | ok {p : Program} : ParseReports source ⟨.ok p, (tokenize source).2⟩
  | error {scanned rest : List Lexeme} {l : Lexeme} {f : Fault} : lexemes source = scanned ++ l :: rest →
    f.Concerns l.token →
    ParseReports source ⟨.error ⟨f, l.token.span⟩, (scanned ++ [l]).flatMap Lexeme.errors ++ [⟨f, l.token.span⟩]⟩

theorem parseReports (source : String) : ParseReports source (parse source) := by
  obtain ⟨l, ls, hlexemes, hofString⟩ := exists_ofString source
  have hp := ready_ofString source
  have hreads := Reads.program hp
  have hreports := Grammar.reportsOnce_program .standard (Parser.ofString source)
  have hstops (program : Program) (q : Parser) := @Reads.program_stops _ _ q program hp
  unfold parse
  generalize Grammar.program .standard (Parser.ofString source) = o at hreads hreports hstops ⊢
  rw [hofString] at hreports
  cases hreports with
  | @ok p q scanned hscans herrors =>
    -- where a program ends no lexeme is left
    have hend : q.upcoming = [] := by
      cases hreads with
      | ok ht => exact (hp.after ht).eof_iff.1 (hstops p q rfl)
    have hall : scanned = ls := by
      have hupcoming := hscans.upcoming
      rw [hend, List.append_nil] at hupcoming
      exact hupcoming.symm
    have htext : q.errors = (tokenize source).2 := by
      rw [herrors, hall, tokenize, hlexemes, List.flatMap_cons]
    dsimp only
    rw [htext]
    exact .ok
  | @error f q scanned hscans hconcerns herrors =>
    obtain ⟨w, hw⟩ := hscans.last
    -- the last lexeme that was scanned is that of the token the parse stopped at
    obtain ⟨front, last, hfront, hlast⟩ : ∃ front last, l :: scanned = front ++ [last] ∧ last.token = q.current := by
      rw [← List.map_cons (f := Lexeme.token)] at hw
      obtain ⟨front, back, hsplit, -, hback⟩ := List.map_eq_append_iff.1 hw
      obtain ⟨last, rfl, hlast⟩ := List.map_eq_singleton_iff.1 hback
      exact ⟨front, last, hsplit, hlast⟩
    have htext : lexemes source = front ++ last :: q.upcoming := by
      have hupcoming : ls = scanned ++ q.upcoming := hscans.upcoming
      rw [hlexemes, hupcoming, ← List.cons_append, hfront, List.append_assoc, List.singleton_append]
    have hreported : q.errors = (front ++ [last]).flatMap Lexeme.errors ++ [q.errorHere f] := by
      rw [herrors, ← hfront, List.flatMap_cons]
    dsimp only
    rw [hreported, Parser.errorHere, ← hlast]
    exact .error htext (by rwa [hlast])

/-- A compilation has a result exactly if nothing was reported. -/
theorem compile_isSome_iff (options : Typing.Options) (source : String) :
    (compile options source).program.isSome = true ↔ (compile options source).errors = [] := by
  have hreports := parseReports source
  unfold compile
  generalize parse source = parsed at hreports ⊢
  cases hreports with
  | ok =>
    rw [Compilation.isSome_ofProgram, List.isEmpty_iff]
    rfl
  | error => simp

open Grammar Parse in
/-- The steps of a parse each report one syntax error if they fail and none if they succeed. -/
structure StepsReportOnce (d : Dispatch) : Prop where
  expect (k : TokenKind) : (expect k).ReportsOnce
  expectIdent : expectIdent.ReportsOnce
  typeName : typeName.ReportsOnce
  declaratorSuffix (base : Ty) : (declaratorSuffix base).ReportsOnce
  expression (power : Power) : (expression d power).ReportsOnce
  initialiser : (initialiser d).ReportsOnce
  statement : (statement d).ReportsOnce
  block : (block d).ReportsOnce
  varDecls (start : Position) (base : Ty) (first : Ident) (isGlobal : Bool) :
    (varDecls d start base first isGlobal).ReportsOnce

open Grammar Parse in
/-- A parse reports what is wrong with the characters it has scanned and, if it fails, one syntax error behind
that. So does each of its steps, and a compilation has a result exactly if the sink stays empty. -/
theorem parse_reportsOnce (source : String) :
    ParseReports source (parse source) ∧ (∀ e ∈ (tokenize source).2, e.fault.Lexical) ∧
      (∀ d, StepsReportOnce d) ∧
        ∀ options, (compile options source).program.isSome =
          (Diagnostics.ofErrors (compile options source).errors).isEmpty := by
  refine ⟨parseReports source, ?_, fun d => ?_, fun options => ?_⟩
  · intro e he
    obtain ⟨l, hl, he⟩ := List.mem_flatMap.1 he
    exact lexemes_lexical source l hl e he
  · exact ⟨reportsOnce_expect, reportsOnce_expectIdent, reportsOnce_typeName, reportsOnce_declaratorSuffix,
      reportsOnce_expression d, reportsOnce_initialiser d, reportsOnce_statement d, reportsOnce_block d,
      reportsOnce_varDecls d⟩
  · rw [Diagnostics.isEmpty_ofErrors, Bool.eq_iff_iff, List.isEmpty_iff]
    exact compile_isSome_iff options source

/-- What stands behind the token of the syntax error is not scanned. -/
example : (parse "int x = 1 $ 2 $;").errors.map Error.fault = [.illegalCharacter "$", .tokenExpected .semicolon] := by
  decide +kernel

end VCLang
