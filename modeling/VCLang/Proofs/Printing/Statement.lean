/-
Reading printed statements and programs. A statement that ends in an `if` without an `else` is open: no `else`
may follow it, which is why the branch in front of an `else` must not be open. Everything else is read whatever
follows it.
-/
import VCLang.Grammar.Program
import VCLang.Proofs.Printing.Declaration
namespace VCLang

/-! ## Written statements and programs -/

/-- A statement ends in an `if` without an `else`. -/
def Stmt.isOpen : Stmt → Bool
  | ifThen _ _ _ => true
  | ifElse _ _ _ elseBranch => elseBranch.isOpen
  | whileStmt _ _ body => body.isOpen
  | forStmt _ _ _ _ body => body.isOpen
  | _ => false

/-- What may follow a statement: anything, but no `else` behind an open one. -/
def Stmt.mayPrecede (s : Stmt) (k : TokenKind) : Bool := !(s.isOpen && k = .kwElse)

/-- A statement that a text can spell. -/
inductive Stmt.Written : Stmt → Prop
  | compound {info : StmtInfo} {decls : List VarDecl} {stmts : List Stmt} :
    (∀ d ∈ decls, d.Written ∧ d.isGlobal = false) → (∀ s ∈ stmts, Written s) → Written (.compound info decls stmts)
  | ifThen {info : StmtInfo} {cond : Expr} {thenBranch : Stmt} : cond.Written → Written thenBranch →
    Written (.ifThen info cond thenBranch)
  | ifElse {info : StmtInfo} {cond : Expr} {thenBranch elseBranch : Stmt} : cond.Written → Written thenBranch →
    thenBranch.isOpen = false → Written elseBranch → Written (.ifElse info cond thenBranch elseBranch)
  | whileStmt {info : StmtInfo} {cond : Expr} {body : Stmt} : cond.Written → Written body →
    Written (.whileStmt info cond body)
  | forStmt {info : StmtInfo} {init cond update : Option Expr} {body : Stmt} : (∀ e ∈ init, e.Written) →
    (∀ e ∈ cond, e.Written) → (∀ e ∈ update, e.Written) → Written body →
    Written (.forStmt info init cond update body)
  | breakStmt {info : StmtInfo} : Written (.breakStmt info)
  | continueStmt {info : StmtInfo} : Written (.continueStmt info)
  | returnStmt {info : StmtInfo} {value : Option Expr} : (∀ e ∈ value, e.Written) →
    Written (.returnStmt info value)
  | exprStmt {info : StmtInfo} {expr : Expr} : expr.Written → Written (.exprStmt info expr)
  | emptyStmt {info : StmtInfo} : Written (.emptyStmt info)

/-- A function that a text can spell. -/
structure Function.Written (f : Function) : Prop where
  ident : f.ident.word.Legible
  ty : f.ty.Named
  params : ∀ p ∈ f.params, p.Written
  body : f.body.toStmt.Written

inductive TopDecl.Written : TopDecl → Prop
  | func {f : Function} : f.Written → Written (.func f)
  | var {d : VarDecl} : d.Written → d.isGlobal = true → Written (.var d)

theorem Stmt.Written.begins {s : Stmt} (h : s.Written) : Begins startsStmt s.words := by
  cases h with
  | exprStmt he =>
    rw [words]
    refine he.begins.append.mono fun k hk => ?_
    revert hk
    cases k <;> decide
  | _ => rfl

theorem VarDecl.Written.begins {d : VarDecl} (h : d.Written) : Begins TokenKind.isType d.words := h.ty.isType

theorem Param.Written.begins {p : Param} (h : p.Written) : Begins TokenKind.isType p.words := h.ty.isType

theorem TopDecl.Written.begins {d : TopDecl} (h : d.Written) : Begins TokenKind.isType d.words := by
  cases h with
  | func hf => exact hf.ty.isType
  | var hd => exact hd.begins

namespace Grammar

open Parse

variable {n : Nat} {S : TokenKind → Bool}

/-! ## Statements -/

theorem takes_finish {start : Position} {build : StmtInfo → Stmt} {s : Stmt} (h : ∀ info, (build info).bare = s.bare) :
    Takes n (finish start build) [] S fun s' => s'.bare = s.bare := by
  unfold finish
  exact Takes.silent_bind (fun p => ⟨_, _, rfl, rfl⟩) fun _ => Takes.newStmt h

theorem takes_condition {e : Expr} (h : e.Written) :
    Takes n (condition .standard) (Word.parenthesised e.words) S fun e' => e'.bare = e.bare := by
  unfold condition
  refine Takes.expect_bind rfl fun _ _ => ?_
  refine Takes.bind (h.takes _) (fun e' he' => ?_) fun _ _ => rfl
  exact Takes.expect_bind rfl fun _ _ => Takes.pure he'

theorem takes_optionalExpr {k : TokenKind} {o : Option Expr} (h : ∀ e ∈ o, e.Written) (hk : startsExpr k = false)
    (hstop : Power.lowest.stopsAt k = true) :
    Takes n (optionalExpr .standard k) (Expr.wordsOption o ++ [k.word]) S
      fun o' => o'.map Expr.bare = o.map Expr.bare := by
  unfold optionalExpr
  cases o with
  | none =>
    refine Takes.kind_bind (T := (· = k)) (decide_eq_true rfl) fun k' hk' => ?_
    rw [if_pos (of_decide_eq_true hk')]
    exact Takes.pure_bind (Takes.expect_bind rfl fun _ _ => Takes.pure rfl)
  | some e =>
    have he := h e rfl
    refine Takes.kind_bind he.begins.append fun k' hk' => ?_
    have hne : k' ≠ k := by
      rintro rfl
      rw [hk] at hk'
      cases hk'
    rw [if_neg hne]
    have hvalue : Takes n (some <$> expression .standard .lowest) e.words Power.lowest.stopsAt
        fun o' => o'.map Expr.bare = (some e).map Expr.bare :=
      Takes.map ((he.takes n).weaken le_rfl (fun _ hk => hk) fun e' he' => by rw [Option.map_some, he']; rfl)
    refine Takes.bind hvalue (fun o' ho' => ?_) fun _ _ => hstop
    exact Takes.expect_bind rfl fun _ _ => Takes.pure ho'

theorem takes_optionalExpr_bind {α : Type} {f : Option Expr → Parse α} {k : TokenKind} {o : Option Expr}
    {ws : List Word} {P : α → Prop} (h : ∀ e ∈ o, e.Written) (hk : startsExpr k = false)
    (hstop : Power.lowest.stopsAt k = true)
    (hf : ∀ o', o'.map Expr.bare = o.map Expr.bare → Takes n (f o') ws S P) :
    Takes n (optionalExpr .standard k >>= f) (Expr.wordsOption o ++ k.word :: ws) S P := by
  rw [List.append_cons]
  exact Takes.bind (takes_optionalExpr (S := fun _ => true) h hk hstop) hf fun _ hrest => hrest.any

/-- A step reads the words of a statement as this statement. -/
def TakesStmt (n : Nat) (m : Parse Stmt) (s : Stmt) : Prop :=
  Takes n m s.words s.mayPrecede fun s' => s'.bare = s.bare

theorem mayPrecede_of_ne {s : Stmt} {k : TokenKind} (h : k ≠ .kwElse) : s.mayPrecede k = true := by
  rw [Stmt.mayPrecede, decide_eq_false h, Bool.and_false]
  rfl

theorem mayPrecede_of_closed {s : Stmt} (h : s.isOpen = false) (k : TokenKind) : s.mayPrecede k = true := by
  rw [Stmt.mayPrecede, h, Bool.false_and]
  rfl

/-- Lists of one item each, joined. -/
theorem map_flatten_of_singletons {α β : Type} {f : α → β} {xss : List (List α)} {xs : List α}
    (h : xss.map (List.map f) = xs.map fun x => [f x]) : xss.flatten.map f = xs.map f := by
  rw [List.map_flatten, h, ← List.flatMap_def, ← List.map_eq_flatMap]

theorem takes_blockWith {info : StmtInfo} {decls : List VarDecl} {stmts : List Stmt} {stmt : Parse Stmt}
    (hdecls : ∀ d ∈ decls, d.Written ∧ d.isGlobal = false)
    (hstmts : ∀ s ∈ stmts, s.Written ∧ TakesStmt (n - 1) stmt s) :
    Takes n (blockWith .standard stmt) (Stmt.compound info decls stmts).words S
      fun b => b.toStmt.bare = (Stmt.compound info decls stmts).bare := by
  unfold blockWith
  rw [Stmt.words, Stmt.wordsAll_eq]
  refine Takes.expect_bind rfl fun _ _ => ?_
  have hdecls' : Takes (n - 1) (many TokenKind.isType (localDecls .standard)) (decls.flatMap VarDecl.words)
      (fun k => startsStmt k || k = .rCurly)
      fun dss => dss.map (List.map VarDecl.bare) = decls.map fun d => [d.bare] := by
    refine Takes.many (T := TokenKind.isType) (fun d hd => ?_) (fun _ hk => hk) fun k hk => ?_
    · obtain ⟨hwritten, hlocal⟩ := hdecls d hd
      exact ⟨hwritten.begins, takes_localDecls hwritten hlocal⟩
    · revert hk
      cases k <;> decide
  have hstmts' : Takes (n - 1) (many (· ≠ .rCurly) stmt) (stmts.flatMap Stmt.words) (· = .rCurly)
      fun ss => ss.map Stmt.bare = stmts.map Stmt.bare := by
    refine Takes.many (T := startsStmt) (fun s hs => ?_) (fun k hk => ?_) fun k hk => ?_
    · obtain ⟨hwritten, htakes⟩ := hstmts s hs
      refine ⟨hwritten.begins, htakes.before fun k hk => mayPrecede_of_ne ?_⟩
      rintro rfl
      cases hk
    · revert hk
      cases k <;> decide
    · rw [of_decide_eq_true hk]
      rfl
  refine Takes.bind hdecls' (fun dss hdss => ?_) fun rest hrest => ?_
  · refine Takes.bind hstmts' (fun ss hss => ?_) fun _ _ => rfl
    refine Takes.expect_bind rfl fun _ _ => ?_
    refine Takes.silent_bind (fun p => ⟨_, _, rfl, rfl⟩) fun _ => Takes.pure ?_
    rw [Block.toStmt, Stmt.bare, Stmt.bare, Stmt.bareAll_eq, Stmt.bareAll_eq, hss, map_flatten_of_singletons hdss]
  · -- behind the declarations stands a statement or the brace, and neither begins with a type
    cases stmts with
    | nil => rfl
    | cons s ss =>
      have hbegins := (hstmts s (by simp)).1.begins
      rw [List.flatMap_cons, List.append_assoc, List.append_assoc]
      exact hbegins.append.mono fun k hk => by rw [hk, Bool.true_or]

/-- A statement of a form that its first word tells. -/
theorem takes_statementForm {s : Stmt} {w : Word} {ws : List Word} {form : StmtForm} (hs : s.words = w :: ws)
    (hform : Dispatch.standard.statement w.kind = some form)
    (h : ∀ n, TakesStmt (n + 1) (statementForm .standard (statementUpTo .standard n) form) s) (n : Nat) :
    TakesStmt n (statementUpTo .standard n) s := by
  cases n with
  | zero =>
    intro p rest hp hlength _
    rw [hp, hs] at hlength
    cases hlength
  | succ n =>
    unfold TakesStmt statementUpTo
    refine Takes.kind_bind (T := (· = w.kind)) (by rw [hs]; exact decide_eq_true rfl) fun k hk => ?_
    rw [of_decide_eq_true hk, hform]
    exact h n

theorem takes_ifThen {info : StmtInfo} {cond : Expr} {s : Stmt} (hcond : cond.Written)
    (hs : ∀ n, TakesStmt n (statementUpTo .standard n) s) (n : Nat) :
    TakesStmt n (statementUpTo .standard n) (.ifThen info cond s) := by
  refine takes_statementForm rfl rfl (fun n => ?_) n
  unfold TakesStmt statementForm
  rw [Stmt.words]
  refine Takes.advance_bind fun _ _ => ?_
  refine Takes.bind (takes_condition (S := fun _ => true) hcond) (fun cond' hcond' => ?_) fun _ hrest => hrest.any
  -- the statement is open whatever its branch is, and no `else` may follow either of them
  have helse {k : TokenKind} (hk : (Stmt.ifThen info cond s).mayPrecede k = true) : k ≠ .kwElse := by
    rintro rfl
    cases hk
  refine Takes.bind_last ((hs n).before fun k hk => mayPrecede_of_ne (helse hk)) fun s' hs' => ?_
  refine Takes.kind_follow fun k hk => ?_
  rw [if_neg (helse hk)]
  refine takes_finish fun _ => ?_
  rw [Stmt.bare, Stmt.bare, hcond', hs']

theorem takes_ifElse {info : StmtInfo} {cond : Expr} {s t : Stmt} (hcond : cond.Written) (hclosed : s.isOpen = false)
    (hs : ∀ n, TakesStmt n (statementUpTo .standard n) s) (ht : ∀ n, TakesStmt n (statementUpTo .standard n) t)
    (n : Nat) : TakesStmt n (statementUpTo .standard n) (.ifElse info cond s t) := by
  refine takes_statementForm rfl rfl (fun n => ?_) n
  unfold TakesStmt statementForm
  rw [Stmt.words]
  refine Takes.advance_bind fun _ _ => ?_
  refine Takes.bind (takes_condition (S := fun _ => true) hcond) (fun cond' hcond' => ?_) fun _ hrest => hrest.any
  refine Takes.bind (hs n) (fun s' hs' => ?_) fun _ _ => mayPrecede_of_closed hclosed _
  refine Takes.kind_bind (T := (· = .kwElse)) (decide_eq_true rfl) fun k hk => ?_
  rw [if_pos (of_decide_eq_true hk)]
  refine Takes.advance_bind fun _ _ => ?_
  refine Takes.bind_last ((ht n).weaken (Nat.sub_le _ _) (fun k hk => hk) fun _ h => h) fun t' ht' => ?_
  refine takes_finish fun _ => ?_
  rw [Stmt.bare, Stmt.bare, hcond', hs', ht']

theorem takes_whileStmt {info : StmtInfo} {cond : Expr} {s : Stmt} (hcond : cond.Written)
    (hs : ∀ n, TakesStmt n (statementUpTo .standard n) s) (n : Nat) :
    TakesStmt n (statementUpTo .standard n) (.whileStmt info cond s) := by
  refine takes_statementForm rfl rfl (fun n => ?_) n
  unfold TakesStmt statementForm
  rw [Stmt.words]
  refine Takes.advance_bind fun _ _ => ?_
  refine Takes.bind (takes_condition (S := fun _ => true) hcond) (fun cond' hcond' => ?_) fun _ hrest => hrest.any
  refine Takes.bind_last (hs n) fun s' hs' => takes_finish fun _ => ?_
  rw [Stmt.bare, Stmt.bare, hcond', hs']

theorem takes_forStmt {info : StmtInfo} {init cond update : Option Expr} {s : Stmt} (hinit : ∀ e ∈ init, e.Written)
    (hcond : ∀ e ∈ cond, e.Written) (hupdate : ∀ e ∈ update, e.Written)
    (hs : ∀ n, TakesStmt n (statementUpTo .standard n) s) (n : Nat) :
    TakesStmt n (statementUpTo .standard n) (.forStmt info init cond update s) := by
  refine takes_statementForm rfl rfl (fun n => ?_) n
  unfold TakesStmt statementForm
  rw [Stmt.words]
  refine Takes.advance_bind fun _ _ => Takes.expect_bind rfl fun _ _ => ?_
  refine takes_optionalExpr_bind hinit rfl rfl fun init' hinit' => ?_
  refine takes_optionalExpr_bind hcond rfl rfl fun cond' hcond' => ?_
  refine takes_optionalExpr_bind hupdate rfl rfl fun update' hupdate' => ?_
  refine Takes.bind_last ((hs n).weaken (Nat.sub_le _ _) (fun _ hk => hk) fun _ h => h) fun s' hs' => ?_
  refine takes_finish fun _ => ?_
  rw [Stmt.bare, Stmt.bare, hinit', hcond', hupdate', hs']

theorem takes_exprStmt {info : StmtInfo} {e : Expr} (h : e.Written) (n : Nat) :
    TakesStmt n (statementUpTo .standard n) (.exprStmt info e) := by
  unfold TakesStmt
  rw [Stmt.words]
  cases n with
  | zero =>
    intro p rest hp hlength _
    rw [hp, List.append_assoc, List.length_append] at hlength
    have hpos := List.length_pos_of_ne_nil h.begins.ne_nil
    omega
  | succ n =>
    unfold statementUpTo
    refine Takes.kind_bind h.begins.append fun k hk => ?_
    have hform : Dispatch.standard.statement k = none := by
      revert hk
      cases k <;> decide
    rw [hform]
    unfold exprStatement
    refine Takes.silent_bind (fun p => ⟨_, _, rfl, rfl⟩) fun _ => ?_
    refine Takes.bind (h.takes _) (fun e' he' => ?_) fun _ _ => rfl
    refine Takes.expect_bind rfl fun _ _ => takes_finish fun _ => ?_
    rw [Stmt.bare, Stmt.bare, he']

end Grammar

open Grammar

/-- The words of a written statement are read as it. -/
theorem Stmt.Written.takes {s : Stmt} (h : s.Written) (n : Nat) : TakesStmt n (statementUpTo .standard n) s := by
  induction h generalizing n with
  | @compound info decls stmts hdecls hstmts ih =>
    refine takes_statementForm rfl rfl (fun n => ?_) n
    unfold TakesStmt statementForm
    exact Parse.Takes.map (takes_blockWith hdecls fun s hs => ⟨hstmts s hs, ih s hs _⟩)
  | ifThen hcond _ ih => exact takes_ifThen hcond ih n
  | ifElse hcond _ hclosed _ ihThen ihElse => exact takes_ifElse hcond hclosed ihThen ihElse n
  | whileStmt hcond _ ih => exact takes_whileStmt hcond ih n
  | forStmt hinit hcond hupdate _ ih => exact takes_forStmt hinit hcond hupdate ih n
  | breakStmt =>
    refine takes_statementForm rfl rfl (fun n => ?_) n
    unfold TakesStmt statementForm
    exact Parse.Takes.advance_bind fun _ _ => Parse.Takes.expect_bind rfl fun _ _ => takes_finish fun _ => rfl
  | continueStmt =>
    refine takes_statementForm rfl rfl (fun n => ?_) n
    unfold TakesStmt statementForm
    exact Parse.Takes.advance_bind fun _ _ => Parse.Takes.expect_bind rfl fun _ _ => takes_finish fun _ => rfl
  | @returnStmt info value hvalue =>
    refine takes_statementForm rfl rfl (fun n => ?_) n
    unfold TakesStmt statementForm
    refine Parse.Takes.advance_bind fun _ _ => takes_optionalExpr_bind hvalue rfl rfl fun value' hvalue' => ?_
    refine takes_finish fun _ => ?_
    rw [Stmt.bare, Stmt.bare, hvalue']
  | @exprStmt info expr hexpr => exact takes_exprStmt hexpr n
  | emptyStmt =>
    refine takes_statementForm rfl rfl (fun n => ?_) n
    unfold TakesStmt statementForm
    exact Parse.Takes.advance_bind fun _ _ => takes_finish fun _ => rfl

namespace Grammar

open Parse

variable {n : Nat} {S : TokenKind → Bool}

/-! ## Programs -/

theorem takes_block {b : Block} (h : b.toStmt.Written) :
    Takes n (block .standard) b.toStmt.words S fun b' => b'.toStmt.bare = b.toStmt.bare := by
  have hstatement {s : Stmt} (hs : s.Written) : TakesStmt (n - 1) (statement .standard) s := fun p rest hp _ hrest =>
    hs.takes _ p rest hp p.length_words.le hrest
  cases h with
  | compound hdecls hstmts => exact takes_blockWith hdecls fun s hs => ⟨hstmts s hs, hstatement (hstmts s hs)⟩

theorem takes_function {start : Position} {f : Function} {ident : Ident} (h : f.Written)
    (hident : ident.bare = f.ident.bare) :
    Takes n (function .standard start f.ty ident)
      (Word.parenthesised (Word.separated (f.params.map Param.words)) ++ f.body.toStmt.words) S
      fun f' => f'.bare = f.bare := by
  have hparams : Takes n (Parse.parenthesised param) (Word.parenthesised (Word.separated (f.params.map Param.words)))
      (fun _ => true) fun ps => ps.map Param.bare = f.params.map Param.bare := by
    refine Takes.parenthesised fun p hp => ⟨(h.params p hp).begins.mono fun k hk => ?_,
      (takes_param (h.params p hp)).before fun k hk => ?_⟩
    · revert hk
      cases k <;> decide
    · revert hk
      cases k <;> decide
  unfold function
  refine Takes.bind hparams (fun params hparams => ?_) fun _ hrest => hrest.any
  refine Takes.bind_last (takes_block h.body) fun body hbody => ?_
  refine Takes.silent_bind (fun p => ⟨_, _, rfl, rfl⟩) fun _ => ?_
  refine Takes.silent_bind (fun p => ⟨_, _, rfl, rfl⟩) fun _ => Takes.pure ?_
  rw [Block.toStmt, Block.toStmt, Stmt.bare, Stmt.bare, Stmt.bareAll_eq, Stmt.bareAll_eq] at hbody
  obtain ⟨-, hdecls, hstmts⟩ := Stmt.compound.inj hbody
  rw [Function.bare, Function.bare, hident, hparams, hdecls, hstmts]

theorem takes_topLevel {d : TopDecl} (h : d.Written) :
    Takes n (topLevel .standard) d.words S fun ds => ds.map TopDecl.bare = [d.bare] := by
  unfold topLevel
  refine Takes.silent_bind (fun p => ⟨_, _, rfl, rfl⟩) fun start => ?_
  cases h with
  | @func f hf =>
    refine Takes.bind_head (takes_typeName (S := fun _ => true) hf.ty) (fun ty hty => ?_) fun _ hrest => hrest.any
    refine Takes.expectIdent_bind fun ident hident => ?_
    refine Takes.kind_bind (T := (· = .lParen)) (decide_eq_true rfl) fun k hk => ?_
    rw [if_pos (of_decide_eq_true hk), hty]
    refine Takes.bind_pure (takes_function hf hident) fun f' hf' => ?_
    rw [List.map_singleton, TopDecl.bare, hf']
    rfl
  | @var d hd hglobal =>
    refine takes_declarator hd.ty fun ident hident => ?_
    -- what stands behind the name tells a variable from a function
    have hbegins : Begins (fun k => k ≠ .lParen) (d.ty.suffix ++ (initWords d.init ++ [TokenKind.semicolon.word])) := by
      rcases d.ty with _ | _ | _ | _ | _ | _ | _ <;> rcases d.init with _ | _ <;> rfl
    refine Takes.kind_bind hbegins fun k hk => ?_
    rw [if_neg (of_decide_eq_true hk), ← hglobal]
    refine Takes.bind_pure (takes_varDecls hd hident) fun ds hds => ?_
    have hvar : TopDecl.bare ∘ TopDecl.var = TopDecl.var ∘ VarDecl.bare := rfl
    rw [List.map_map, hvar, ← List.map_map, hds]
    rfl

/-- The words of a written program with the end mark behind them are read as the program. -/
theorem takes_program {p : Program} (h : ∀ d ∈ p.decls, d.Written) :
    Takes n (program .standard) p.words (· = .eof) fun p' => p'.decls.map TopDecl.bare = p.decls.map TopDecl.bare := by
  have hdecls : Takes n (many (· ≠ .eof) (topLevel .standard)) (p.decls.flatMap TopDecl.words) (· = .eof)
      fun dss => dss.map (List.map TopDecl.bare) = p.decls.map fun d => [d.bare] := by
    refine Takes.many (T := TokenKind.isType) (fun d hd => ⟨(h d hd).begins, takes_topLevel (h d hd)⟩)
      (fun k hk => ?_) fun k hk => ?_
    · revert hk
      cases k <;> decide
    · rw [of_decide_eq_true hk]
      rfl
  unfold program
  refine Takes.silent_bind (fun p => ⟨_, _, rfl, rfl⟩) fun _ => ?_
  refine Takes.bind_last hdecls fun dss hdss => ?_
  refine Takes.silent_bind (fun p => ⟨_, _, rfl, rfl⟩) fun _ => Takes.pure ?_
  exact map_flatten_of_singletons hdss

end Grammar

end VCLang
