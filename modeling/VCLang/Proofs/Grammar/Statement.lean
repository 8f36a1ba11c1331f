/-
Statements, blocks, functions and programs read their rules.

A statement may go on with an `else` that belongs to it. What follows a statement is therefore asked to take
every `else` as the branch of a statement: then it does not matter which statement took it.
-/
import VCLang.Grammar.Program
import VCLang.Proofs.Grammar.Declaration
namespace VCLang

open Dispatch

/-- Where what follows a statement begins with `else`, it begins with a branch. -/
def TakesElse (K : Language Token) : Prop :=
  ∀ t ts, t :: ts ∈ K → t.kind = .kwElse → t :: ts ∈ (Pattern.seq (.kind .kwElse) (.rule .stmt)).lang * K

theorem Follow.takesElse {S : TokenKind → Bool} {K : Language Token} (hK : Follow S K)
    (hS : S .kwElse = false) : TakesElse K := by
  intro t ts h hk
  exact absurd h (hK.not_mem (by rw [hk, hS]))

/-- Behind the first branch of a statement, an `else` begins the second or is taken by what follows. -/
theorem TakesElse.opt {K : Language Token} (hK : TakesElse K) :
    TakesElse ((Pattern.opt (.seq (.kind .kwElse) (.rule .stmt))).lang * K) := by
  intro t ts h hk
  have hle : ∀ w ∈ K, w ∈ (Pattern.opt (.seq (.kind .kwElse) (.rule .stmt))).lang * K := fun w hw =>
    Language.append_mem_mul (Pattern.nil_mem rfl) hw
  have hbranch : t :: ts ∈ (Pattern.seq (.kind .kwElse) (.rule .stmt)).lang * K := by
    rw [Pattern.lang_opt, add_mul, one_mul, Language.mem_add] at h
    exact h.elim id fun h => hK t ts h hk
  obtain ⟨u, hu, v, hv, huv⟩ := Language.mem_mul.1 hbranch
  exact Language.mem_mul.2 ⟨u, hu, v, hle v hv, huv⟩

namespace Reads

variable {F : Language Token → Prop} {n : Nat} {p : Parser} {stmt : Parse Stmt}

theorem finish_silent (start : Position) (build : StmtInfo → Stmt) : (Grammar.finish start build).Silent :=
  fun _ => ⟨_, _, rfl, rfl⟩

theorem localDecls (hp : p.Ready n) :
    Reads F (.seq (.rule .type) (.seq (.rule .initDeclaratorList) (.kind .semicolon))) p
      (Grammar.localDecls standard p) := by
  refine silentThen (fun s => ⟨_, _, rfl, rfl⟩) fun start q hq => ?_
  have hq := hp.of_tokens hq
  refine (typeName (F := fun _ => True) hq).andThen hq (fun base r hr => ?_) fun _ _ => trivial
  refine Reads.congr (a := .seq (.kind .ident) (.rule .varRest)) ?_ ?_
  · exact (expectIdent (F := fun _ => True) hr).andThen hr (fun ident s hs => varDecls hs _ _ _ _) fun _ _ => trivial
  · simp only [Pattern.lang_rule, Rule.body, Pattern.lang_list, Pattern.lang_seq, mul_assoc]

/-- A block, if its statements are read. -/
theorem blockWith (hstmt : ∀ p : Parser, p.Ready n → Reads TakesElse (.rule .stmt) p (stmt p))
    (hp : p.Ready (n + 1)) : Reads F (.rule .compoundStmt) p (Grammar.blockWith standard stmt p) := by
  refine rule ((expect (F := fun _ => True) hp (by decide)).andNext hp rfl (fun t q hq => ?_) fun _ _ => trivial)
  refine (many (F := Follow (!·.isType)) (G := fun _ => True) (fun p hp _ => localDecls hp) rfl (fun k hk => ?_)
    (fun _ _ => trivial) (fun K hK => hK) hq).andThen hq (fun decls r hr => ?_) fun K _ => ?_
  · simpa [Pattern.first, Pattern.nullable, Rule.first] using hk
  · refine (many (F := Follow (· = .rCurly)) (fun p hp _ => hstmt p hp) rfl (fun k hk => ?_) (fun K hK => ?_)
      (fun K hK => ?_) hr).andThen hr (fun stmts s hs => ?_) fun K _ => Follow.nonempty (fun k hk => hk) rfl
    · cases k <;> first
        | rfl
        | cases hk
    · refine Follow.takesElse (S := fun k => startsStmt k || k = .rCurly) (Follow.mul (fun k hk => ?_)
        fun _ => hK.mono fun k hk => ?_) rfl
      · rw [show startsStmt k = true from hk, Bool.true_or]
      · rw [hk, Bool.or_true]
    · exact hK.mono fun k hk => by rw [of_decide_eq_true hk]; rfl
    · exact (expect hs (by decide)).andSilent fun _ u => ⟨_, _, rfl, rfl⟩
  · refine Follow.nonempty (fun k hk => ?_) rfl
    cases k <;> first
      | rfl
      | cases hk

/-! ## The forms of statements -/

/-- An expression in parentheses. -/
def parenthesisedExpr : Pattern := .seq (.kind .lParen) (.seq (.rule .expr) (.kind .rParen))

theorem condition (hp : p.Ready n) : Reads F parenthesisedExpr p (Grammar.condition standard p) := by
  refine (expect (F := fun _ => True) hp (by decide)).andThen hp (fun _ q hq => ?_) fun _ _ => trivial
  refine (expression hq).andThen hq (fun e r hr => ?_) fun K _ => Follow.nonempty (fun k hk => ?_) rfl
  · exact (expect hr (by decide)).andSilent fun _ s => ⟨_, _, rfl, rfl⟩
  · rw [of_decide_eq_true hk]
    rfl

/-- An expression that may be absent and the token that ends it, with which no expression begins or goes
on. -/
theorem optionalExpr {k : TokenKind} (hk : startsExpr k = false ∧ endsLevel 1 k = true ∧ k ≠ .eof)
    (hp : p.Ready n) :
    Reads F (.seq (.opt (.rule .expr)) (.kind k)) p (Grammar.optionalExpr standard k p) := by
  let close (e : Option Expr) : Parse (Option Expr) := Parse.expect k >>= fun _ => pure e
  change Reads _ _ p ((if p.current.kind = k then pure none >>= close
    else (some <$> Grammar.expression standard .lowest) >>= close) p)
  rw [Parse.ite_bind]
  have hopt : Reads (Follow (· = k)) (.opt (.rule .expr)) p
      ((if p.current.kind = k then pure none else some <$> Grammar.expression standard .lowest :
        Parse (Option Expr)) p) := by
    split_ifs with h
    · refine nothing (fun q => ⟨_, _, rfl, rfl⟩) rfl ?_
      simp [Pattern.opt, Pattern.first, Rule.first, h, hk.1]
    · refine opt (((expression hp).weaken fun K hK => ?_).andSilent fun e q => ⟨_, _, rfl, rfl⟩) fun K ts hK => ?_
      · exact hK.mono fun k' hk' => by rw [of_decide_eq_true hk', hk.2.1]
      · exact hK.not_mem (decide_eq_false h)
  refine hopt.andThen hp (fun e q hq => ?_) fun K _ => Follow.nonempty (fun k hk => hk) rfl
  exact (expect hq hk.2.2).andSilent fun _ r => ⟨_, _, rfl, rfl⟩

/-- The forms of a statement, behind the block. -/
def stmtForms : List Pattern :=
  [.rule .ifStmt, .rule .forStmt, .rule .whileStmt,
    .seq (.kind .kwBreak) (.kind .semicolon), .seq (.kind .kwContinue) (.kind .semicolon),
    .seq (.kind .kwReturn) (.seq (.opt (.rule .expr)) (.kind .semicolon)),
    .seq (.opt (.rule .expr)) (.kind .semicolon)]

/-- What reads a form of a statement that alone begins with the current token reads a statement. -/
theorem ofForm {a : Pattern} {r : Except Error Stmt × Parser} (h : Reads F a p r)
    (ha : a ∈ .rule .compoundStmt :: stmtForms)
    (hc : ∀ c ∈ .rule .compoundStmt :: stmtForms, c = a ∨ c.first p.current.kind = false ∧ c.nullable = false) :
    Reads F (.rule .stmt) p r :=
  rule (show Reads F (.alts (.rule .compoundStmt) stmtForms) p r from alts h ha hc)

theorem ifForm (hstmt : ∀ p : Parser, p.Ready n → Reads TakesElse (.rule .stmt) p (stmt p))
    (hk : p.current.kind = .kwIf) (hp : p.Ready (n + 1)) :
    Reads TakesElse (.rule .ifStmt) p (Grammar.statementForm standard stmt .ifForm p) := by
  refine rule (Reads.congr (a := .seq (.kind .kwIf) (.seq parenthesisedExpr (.seq (.rule .stmt)
    (.opt (.seq (.kind .kwElse) (.rule .stmt)))))) ?_ ?_)
  · refine (advance (F := fun _ => True) hp hk (by decide)).andNext hp rfl (fun t q hq => ?_) fun _ _ => trivial
    refine (condition (F := fun _ => True) hq).andThen hq (fun cond r hr => ?_) fun _ _ => trivial
    refine (hstmt r hr).andThen hr (fun thenBranch s hs => ?_) fun K hK => hK.opt
    change Reads _ _ s ((if s.current.kind = .kwElse then Parse.advance >>= fun _ => stmt >>= fun elseBranch =>
      Grammar.finish t.span.start (.ifElse · cond thenBranch elseBranch)
      else Grammar.finish t.span.start (.ifThen · cond thenBranch)) s)
    split_ifs with helse
    · have hbranch : Reads TakesElse (.seq (.kind .kwElse) (.rule .stmt)) s ((Parse.advance >>= fun _ =>
          stmt >>= fun elseBranch => Grammar.finish t.span.start (.ifElse · cond thenBranch elseBranch)) s) := by
        refine (advance (F := fun _ => True) hs helse (by decide)).andThen hs (fun _ u hu => ?_) fun _ _ => trivial
        exact (hstmt u hu).andSilent fun _ => finish_silent _ _
      refine hbranch.narrow (fun w hw => .altLeft hw) (fun _ hK => hK) fun K ts hK hv => ?_
      rw [Pattern.lang_opt, add_mul, one_mul, Language.mem_add] at hv
      exact hv.elim id fun hv => hK _ ts hv helse
    · exact nothing (finish_silent _ _) rfl (by simp [Pattern.opt, Pattern.first, Pattern.nullable, helse])
  · simp only [Rule.body, parenthesisedExpr, Pattern.lang_seq, mul_assoc]

theorem whileForm (hstmt : ∀ p : Parser, p.Ready n → Reads TakesElse (.rule .stmt) p (stmt p))
    (hk : p.current.kind = .kwWhile) (hp : p.Ready (n + 1)) :
    Reads TakesElse (.rule .whileStmt) p (Grammar.statementForm standard stmt .whileForm p) := by
  refine rule (Reads.congr (a := .seq (.kind .kwWhile) (.seq parenthesisedExpr (.rule .stmt))) ?_ ?_)
  · refine (advance (F := fun _ => True) hp hk (by decide)).andNext hp rfl (fun t q hq => ?_) fun _ _ => trivial
    refine (condition (F := fun _ => True) hq).andThen hq (fun cond r hr => ?_) fun _ _ => trivial
    exact (hstmt r hr).andSilent fun _ => finish_silent _ _
  · simp only [Rule.body, parenthesisedExpr, Pattern.lang_seq, mul_assoc]

theorem forForm (hstmt : ∀ p : Parser, p.Ready n → Reads TakesElse (.rule .stmt) p (stmt p))
    (hk : p.current.kind = .kwFor) (hp : p.Ready (n + 1)) :
    Reads TakesElse (.rule .forStmt) p (Grammar.statementForm standard stmt .forForm p) := by
  let clause (k : TokenKind) : Pattern := .seq (.opt (.rule .expr)) (.kind k)
  refine rule (Reads.congr (a := .seq (.kind .kwFor) (.seq (.kind .lParen) (.seq (clause .semicolon)
    (.seq (clause .semicolon) (.seq (clause .rParen) (.rule .stmt)))))) ?_ ?_)
  · refine (advance (F := fun _ => True) hp hk (by decide)).andNext hp rfl (fun t q hq => ?_) fun _ _ => trivial
    refine (expect (F := fun _ => True) hq (by decide)).andThen hq (fun _ r hr => ?_) fun _ _ => trivial
    refine (optionalExpr (F := fun _ => True) (by decide) hr).andThen hr (fun init s hs => ?_) fun _ _ => trivial
    refine (optionalExpr (F := fun _ => True) (by decide) hs).andThen hs (fun cond u hu => ?_) fun _ _ => trivial
    refine (optionalExpr (F := fun _ => True) (by decide) hu).andThen hu (fun update v hv => ?_) fun _ _ => trivial
    exact (hstmt v hv).andSilent fun _ => finish_silent _ _
  · simp only [Rule.body, clause, Pattern.lang_seq, mul_assoc]

/-- A keyword and a semicolon. -/
theorem keyword {k : TokenKind} {build : StmtInfo → Stmt} (hk : p.current.kind = k) (hne : k ≠ .eof)
    (hp : p.Ready n) :
    Reads F (.seq (.kind k) (.kind .semicolon)) p ((Parse.advance >>= fun t => Parse.expect .semicolon >>= fun _ =>
      Grammar.finish t.span.start build) p) := by
  refine (advance (F := fun _ => True) hp hk hne).andThen hp (fun t q hq => ?_) fun _ _ => trivial
  exact (expect hq (by decide)).andSilent fun _ => finish_silent _ _

/-- The token that a form of statement begins with. -/
def firstToken : StmtForm → TokenKind
  | .block => .lCurly
  | .ifForm => .kwIf
  | .forForm => .kwFor
  | .whileForm => .kwWhile
  | .breakForm => .kwBreak
  | .continueForm => .kwContinue
  | .returnForm => .kwReturn
  | .emptyForm => .semicolon

theorem eq_firstToken {k : TokenKind} {form : StmtForm} (h : standard.statement k = some form) :
    k = firstToken form := by
  cases k <;> cases h <;> rfl

/-- A statement of the form that its first token asks for. -/
theorem statementForm (hstmt : ∀ p : Parser, p.Ready n → Reads TakesElse (.rule .stmt) p (stmt p))
    {form : StmtForm} (hform : standard.statement p.current.kind = some form) (hp : p.Ready (n + 1)) :
    Reads TakesElse (.rule .stmt) p (Grammar.statementForm standard stmt form p) := by
  have hk := eq_firstToken hform
  cases form with
  | block =>
    refine ofForm ((blockWith hstmt hp).andSilent fun b q => ⟨_, _, rfl, rfl⟩) ?_ ?_
    · decide
    · rw [hk]; decide
  | ifForm => exact ofForm (ifForm hstmt hk hp) (by decide) (by rw [hk]; decide)
  | forForm => exact ofForm (forForm hstmt hk hp) (by decide) (by rw [hk]; decide)
  | whileForm => exact ofForm (whileForm hstmt hk hp) (by decide) (by rw [hk]; decide)
  | breakForm => exact ofForm (keyword hk (by decide) hp) (by decide) (by rw [hk]; decide)
  | continueForm => exact ofForm (keyword hk (by decide) hp) (by decide) (by rw [hk]; decide)
  | returnForm =>
    refine ofForm (a := .seq (.kind .kwReturn) (.seq (.opt (.rule .expr)) (.kind .semicolon))) ?_ ?_ ?_
    · refine (advance (F := fun _ => True) hp hk (by decide)).andThen hp (fun t q hq => ?_) fun _ _ => trivial
      exact (optionalExpr (by decide) hq).andSilent fun _ => finish_silent _ _
    · decide
    · rw [hk]; decide
  | emptyForm =>
    refine ofForm (a := .seq (.opt (.rule .expr)) (.kind .semicolon)) ?_ ?_ ?_
    · -- the expression is absent
      change Reads _ _ p ((pure () >>= fun _ => Parse.advance >>= fun t => Grammar.finish t.span.start .emptyStmt) p)
      refine (nothing (F := fun _ => True) (fun q => ⟨_, _, rfl, rfl⟩) rfl (by rw [hk]; rfl)).bind
        (fun _ q _ hr _ _ => ?_) fun _ _ => trivial
      cases hr
      exact (advance hp hk (by decide)).andSilent fun _ => finish_silent _ _
    · decide
    · rw [hk]; decide

/-- An expression as a statement, where the current token is that of no other form. -/
theorem exprStatement (hform : standard.statement p.current.kind = none) (hp : p.Ready n) :
    Reads F (.rule .stmt) p (Grammar.exprStatement standard p) := by
  refine ofForm (a := .seq (.opt (.rule .expr)) (.kind .semicolon)) ?_ ?_ fun c hc => ?_
  · refine silentThen (fun q => ⟨_, _, rfl, rfl⟩) fun start q hq => ?_
    have hc : q.current = p.current := (List.cons.inj hq).1
    have hq := hp.of_tokens hq
    refine Reads.andThen (G := Follow (· = .semicolon)) hq (opt ((expression hq).weaken fun K hK => ?_)
      fun K ts hK => ?_) (fun e r hr => ?_) fun K _ => Follow.nonempty (fun k hk => hk) rfl
    · exact hK.mono fun k hk => by rw [of_decide_eq_true hk]; rfl
    · refine hK.not_mem (decide_eq_false fun hk => ?_)
      rw [← hc, hk] at hform
      cases hform
    · exact (expect hr (by decide)).andSilent fun _ => finish_silent _ _
  · decide
  · have hcases : ∀ k : TokenKind, standard.statement k = none → ∀ c ∈ .rule .compoundStmt :: stmtForms,
        c = .seq (.opt (.rule .expr)) (.kind .semicolon) ∨ c.first k = false ∧ c.nullable = false := by
      intro k hk
      cases k <;> first
        | decide
        | cases hk
    exact hcases _ hform c hc

/-- Statements with fewer than `n` tokens behind them are read with `n` statements inside each other. -/
theorem statementUpTo : ∀ (n : Nat) {p : Parser}, p.Ready n →
    Reads TakesElse (.rule .stmt) p (Grammar.statementUpTo standard n p)
  | 0, p, hp => absurd hp.few (Nat.not_lt_zero _)
  | n + 1, p, hp => by
    rw [Grammar.statementUpTo, Parse.kind_bind]
    rcases hk : standard.statement p.current.kind with _ | form
    · exact exprStatement hk hp
    · exact statementForm (fun _ => statementUpTo n) hk hp

theorem block (hp : p.Ready n) : Reads F (.rule .compoundStmt) p (Grammar.block standard p) :=
  blockWith (fun _ hq => statementUpTo _ hq.self) (hp.mono (Nat.le_succ n))

/-! ## Functions and programs -/

/-- The rest of a function behind its name. -/
theorem function (hp : p.Ready n) (start : Position) (ty : Ty) (ident : Ident) :
    Reads F (.rule .funcRest) p (Grammar.function standard start ty ident p) := by
  have hparams : Reads (fun _ => True) (.rule .paraList) p (Parse.parenthesised Grammar.param p) :=
    rule (parenthesised (fun p hp => param hp) rfl rfl ⟨rfl, rfl⟩ hp)
  refine rule (hparams.andThen hp (fun params q hq => ?_) fun _ _ => trivial)
  exact (block hq).andSilent fun body r => ⟨_, _, rfl, rfl⟩

/-- A declaration at the outermost level. -/
def topLevelPattern : Pattern :=
  .seq (.rule .type) (.seq (.kind .ident) (.alt (.rule .funcRest) (.rule .varRest)))

theorem topLevel (hp : p.Ready n) : Reads F topLevelPattern p (Grammar.topLevel standard p) := by
  refine silentThen (fun s => ⟨_, _, rfl, rfl⟩) fun start q hq => ?_
  have hq := hp.of_tokens hq
  refine (typeName (F := fun _ => True) hq).andThen hq (fun ty r hr => ?_) fun _ _ => trivial
  refine (expectIdent (F := fun _ => True) hr).andThen hr (fun ident s hs => ?_) fun _ _ => trivial
  change Reads _ _ s ((if s.current.kind = .lParen then Grammar.function standard start ty ident >>= _
    else Grammar.varDecls standard start ty ident true >>= _) s)
  split_ifs with hk
  · refine alt_left ((function hs start ty ident).andSilent fun f u => ⟨_, _, rfl, rfl⟩) fun K ts _ => ?_
    exact Pattern.not_mem_mul (by rw [hk]; rfl) rfl
  · refine alt_right ((varDecls hs start ty ident true).andSilent fun f u => ⟨_, _, rfl, rfl⟩) fun K ts _ => ?_
    exact Pattern.not_mem_mul (decide_eq_false hk) rfl

/-- The declarations of a program, up to the end mark. -/
theorem program (hp : p.Ready n) :
    Reads (Follow (· = .eof)) (.many topLevelPattern) p (Grammar.program standard p) := by
  refine silentThen (fun s => ⟨_, _, rfl, rfl⟩) fun start q hq => ?_
  refine (many (G := fun _ => True) (fun p hp _ => topLevel hp) rfl (fun k hk => ?_) (fun _ _ => trivial)
    (fun K hK => ?_) (hp.of_tokens hq)).andSilent fun decls r => ⟨_, _, rfl, rfl⟩
  · cases k <;> first
      | rfl
      | cases hk
  · exact hK.mono fun k hk => by rw [of_decide_eq_true hk]; rfl

/-- A program that is read ends at the end mark. -/
theorem program_stops {q : Parser} {prog : Program} (hp : p.Ready n)
    (h : Grammar.program standard p = (.ok prog, q)) : q.current.kind = .eof := by
  obtain ⟨decls, r, hr, h⟩ := Parse.of_bind_ok
    (show (Parse.many (· ≠ .eof) (Grammar.topLevel standard) >>= _) p = _ from h)
  cases h
  have hstop := manyUpTo_stops (G := fun _ => True) (fun p hp _ => topLevel hp) rfl _ hp (Nat.lt_succ_self _) hr
  simpa using hstop

end Reads

end VCLang
