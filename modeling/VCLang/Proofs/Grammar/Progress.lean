/-
How far a parse moves. Whatever tokens there are, each step moves past some of them and never past an end mark: it
moves on only where it has seen that the token is one of its form. A form that is found has a token at least, and this
is what its loops and its nesting live on.
-/
import VCLang.Grammar.Program
import VCLang.Proofs.Grammar.Reads
namespace VCLang

variable {α β : Type} {p q r : Parser} {ts us : List Token} {n k : Nat}

/-! ## Moves -/

namespace Parser

/-- One parser comes from another by moving past some tokens, none of which is an end mark. On the way nodes are built
and errors are reported. -/
inductive MovesOver : Parser → List Token → Parser → Prop
  | stay {p q : Parser} : q.current = p.current → q.upcoming = p.upcoming → q.previousEnd = p.previousEnd →
    MovesOver p [] q
  | advance {p q : Parser} {ts : List Token} : p.current.kind ≠ .eof → MovesOver p.advance ts q →
    MovesOver p (p.current :: ts) q

theorem MovesOver.refl (p : Parser) : p.MovesOver [] p := .stay rfl rfl rfl

/-- Moves depend on the place of a parser alone. -/
theorem MovesOver.of_stay (h : p.MovesOver ts r) (hcurrent : q.current = p.current)
    (hupcoming : q.upcoming = p.upcoming) (hprevious : q.previousEnd = p.previousEnd) : q.MovesOver ts r := by
  induction h generalizing q with
  | stay hcurrent' hupcoming' hprevious' =>
    exact .stay (hcurrent'.trans hcurrent.symm) (hupcoming'.trans hupcoming.symm) (hprevious'.trans hprevious.symm)
  | @advance p r ts hne _ ih =>
    have hadvance : q.advance.current = p.advance.current ∧ q.advance.upcoming = p.advance.upcoming ∧
        q.advance.previousEnd = p.advance.previousEnd := by
      unfold Parser.advance
      rw [hupcoming]
      cases p.upcoming with
      | nil => exact ⟨hcurrent, rfl, by rw [hcurrent]⟩
      | cons l ls => exact ⟨rfl, rfl, by rw [hcurrent]⟩
    rw [← hcurrent] at hne ⊢
    exact .advance hne (ih hadvance.1 hadvance.2.1 hadvance.2.2)

theorem MovesOver.trans (h : p.MovesOver ts q) (h' : q.MovesOver us r) : p.MovesOver (ts ++ us) r := by
  induction h with
  | stay hcurrent hupcoming hprevious => exact h'.of_stay hcurrent.symm hupcoming.symm hprevious.symm
  | advance hne _ ih => exact .advance hne (ih h')

theorem MovesOver.not_eof (h : p.MovesOver ts q) : ∀ t ∈ ts, t.kind ≠ .eof := by
  induction h with
  | stay => exact fun t ht => nomatch ht
  | advance hne _ ih => exact List.forall_mem_cons.2 ⟨hne, ih⟩

/-- There is an end mark among the tokens before a parser. -/
def Bounded (p : Parser) : Prop := ∃ t ∈ p.tokens, t.kind = .eof

/-- In front of an end mark there is always a next token. -/
theorem Bounded.tokens_advance (h : p.Bounded) (hne : p.current.kind ≠ .eof) :
    p.tokens = p.current :: p.advance.tokens := by
  obtain ⟨t, ht, hk⟩ := h
  unfold Parser.advance Parser.tokens
  cases hup : p.upcoming with
  | nil =>
    rw [Parser.tokens, hup, List.map_nil, List.mem_singleton] at ht
    exact absurd (ht ▸ hk) hne
  | cons l ls => rfl

theorem MovesOver.tokens (h : p.MovesOver ts q) (hp : p.Bounded) : p.tokens = ts ++ q.tokens ∧ q.Bounded := by
  induction h with
  | @stay p q hcurrent hupcoming hprevious =>
    have htokens : q.tokens = p.tokens := by rw [Parser.tokens, Parser.tokens, hcurrent, hupcoming]
    exact ⟨htokens.symm, by rwa [Bounded, htokens]⟩
  | @advance p q ts hne _ ih =>
    have htokens := hp.tokens_advance hne
    obtain ⟨t, ht, hk⟩ := hp
    rw [htokens, List.mem_cons] at ht
    obtain ⟨hrest, hq⟩ := ih ⟨t, ht.resolve_left fun heq => hne (heq ▸ hk), hk⟩
    exact ⟨by rw [htokens, hrest, List.cons_append], hq⟩

/-- A parser has as many tokens less before it as it has moved past. -/
theorem MovesOver.remaining (h : p.MovesOver ts q) (hp : p.Bounded) : q.remaining + ts.length = p.remaining := by
  have hlength := congrArg List.length (h.tokens hp).1
  rw [List.length_append, length_tokens, length_tokens] at hlength
  omega

end Parser

/-- The outcome of a step from `p`: it has moved past no end mark, and past `n` tokens at least if it succeeds. -/
inductive Advances (n : Nat) (p : Parser) : Except Error α × Parser → Prop
  | ok {a : α} {q : Parser} {ts : List Token} : p.MovesOver ts q → n ≤ ts.length → Advances n p (.ok a, q)
  | error {e : Error} {q : Parser} {ts : List Token} : p.MovesOver ts q → Advances n p (.error e, q)

theorem Advances.mono {o : Except Error α × Parser} (h : Advances k p o) (hle : n ≤ k) : Advances n p o := by
  cases h with
  | ok hmoves hk => exact .ok hmoves (hle.trans hk)
  | error hmoves => exact .error hmoves

theorem Advances.exists_movesOver {o : Except Error α × Parser} (h : Advances n p o) : ∃ ts, p.MovesOver ts o.2 := by
  cases h with
  | ok hmoves _ => exact ⟨_, hmoves⟩
  | error hmoves => exact ⟨_, hmoves⟩

/-- A step from a token of some kind moves past `n` tokens at least if it succeeds, and never past an end mark. -/
def Parse.ConsumesAt (c : TokenKind) (n : Nat) (m : Parse α) : Prop := ∀ p, p.current.kind = c → Advances n p (m p)

/-- A step moves past `n` tokens at least if it succeeds, and never past an end mark, wherever it begins. -/
def Parse.Consumes (n : Nat) (m : Parse α) : Prop := ∀ p, Advances n p (m p)

namespace Parse

variable {m : Parse α} {f : α → Parse β} {c : TokenKind}

theorem Consumes.at (h : m.Consumes n) : m.ConsumesAt c n := fun p _ => h p

theorem Consumes.zero (h : m.Consumes n) : m.Consumes 0 := fun p => (h p).mono (Nat.zero_le n)

theorem ConsumesAt.zero (h : m.ConsumesAt c n) : m.ConsumesAt c 0 := fun p hp => (h p hp).mono (Nat.zero_le n)

/-- A step that depends on the kind of the token that is looked at. -/
theorem consumes_kind_bind {f : TokenKind → Parse β} (h : ∀ c, (f c).ConsumesAt c n) : (kind >>= f).Consumes n :=
  fun p => h _ p rfl

/-- A step that stays where it is. -/
theorem consumes_of_stay
    (h : ∀ p, ∃ a q, m p = (.ok a, q) ∧ q.current = p.current ∧ q.upcoming = p.upcoming ∧
      q.previousEnd = p.previousEnd) : m.Consumes 0 := by
  intro p
  obtain ⟨a, q, hm, hcurrent, hupcoming, hprevious⟩ := h p
  rw [hm]
  exact .ok (.stay hcurrent hupcoming hprevious) (Nat.zero_le _)

theorem consumes_pure (a : α) : (pure a : Parse α).Consumes 0 :=
  consumes_of_stay fun _ => ⟨_, _, rfl, rfl, rfl, rfl⟩

theorem consumes_current : current.Consumes 0 := consumes_of_stay fun _ => ⟨_, _, rfl, rfl, rfl, rfl⟩

theorem consumes_kind : kind.Consumes 0 := consumes_of_stay fun _ => ⟨_, _, rfl, rfl, rfl, rfl⟩

theorem consumes_start : start.Consumes 0 := consumes_of_stay fun _ => ⟨_, _, rfl, rfl, rfl, rfl⟩

theorem consumes_spanFrom (s : Position) : (spanFrom s).Consumes 0 :=
  consumes_of_stay fun _ => ⟨_, _, rfl, rfl, rfl, rfl⟩

theorem consumes_newExpr (build : ExprInfo → Expr) (span : Span) : (newExpr build span).Consumes 0 :=
  consumes_of_stay fun _ => ⟨_, _, rfl, rfl, rfl, rfl⟩

theorem consumes_newStmt (build : StmtInfo → Stmt) (span : Span) : (newStmt build span).Consumes 0 :=
  consumes_of_stay fun _ => ⟨_, _, rfl, rfl, rfl, rfl⟩

theorem consumes_newDecl (kind : DeclKind) (ident : Ident) (ty : Ty) (span : Span) :
    (newDecl kind ident ty span).Consumes 0 :=
  consumes_of_stay fun _ => ⟨_, _, rfl, rfl, rfl, rfl⟩

theorem consumes_fail (f : Fault) : (fail f : Parse α).Consumes n := fun _ => .error (.stay rfl rfl rfl)

theorem consumes_illegalPrimary : (illegalPrimary : Parse α).Consumes n := fun p => consumes_fail _ p

/-- Of two steps the second goes on where the first has stopped, or does not begin. -/
theorem ConsumesAt.bind (hm : m.ConsumesAt c n) (hf : ∀ a, (f a).Consumes k) : (m >>= f).ConsumesAt c (n + k) := by
  intro p hp
  have hfirst := hm p hp
  rw [bind_apply]
  generalize m p = o at hfirst
  cases hfirst with
  | error hmoves => exact .error hmoves
  | @ok a q ts hmoves hn =>
    have hsecond := hf a q
    change Advances (n + k) p (f a q)
    generalize f a q = o at hsecond
    cases hsecond with
    | ok hmoves' hk => exact .ok (hmoves.trans hmoves') (by rw [List.length_append]; omega)
    | error hmoves' => exact .error (hmoves.trans hmoves')

/-- What is moved past by the first of two steps. -/
theorem Consumes.first (hm : m.Consumes n) (hf : ∀ a, (f a).Consumes 0) : (m >>= f).Consumes n :=
  fun p => hm.at.bind hf p rfl

/-- What is moved past by the second of two steps. -/
theorem Consumes.second (hm : m.Consumes 0) (hf : ∀ a, (f a).Consumes n) : (m >>= f).Consumes n :=
  fun p => (hm.at.bind hf p rfl).mono (Nat.zero_add n).ge

theorem Consumes.map {f : α → β} (hm : m.Consumes n) : (f <$> m).Consumes n := hm.first fun a => consumes_pure (f a)

theorem Consumes.ite {p : Prop} [Decidable p] {m' : Parse α} (hm : m.Consumes n) (hm' : m'.Consumes n) :
    (if p then m else m').Consumes n := by
  split_ifs
  · exact hm
  · exact hm'

/-! ## Single steps -/

theorem consumesAt_advance (hc : c ≠ .eof) : advance.ConsumesAt c 1 :=
  fun p hp => .ok (.advance (hp ▸ hc) (.refl p.advance)) (Nat.le_refl 1)

/-- A step that begins with moving on, where the token is known not to be an end mark. -/
theorem consumesAt_advance_bind {f : Token → Parse β} (hc : c ≠ .eof) (hf : ∀ t, (f t).Consumes 0) :
    (advance >>= f).ConsumesAt c 1 :=
  (consumesAt_advance hc).bind hf

/-- A step that moves on only at a token of some kind. -/
theorem consumes_when (hc : c ≠ .eof) {f : Token → Parse β} {m : Parse β} (hf : ∀ t, (f t).Consumes 0)
    (hm : m.Consumes 0) : (kind >>= fun k => if k = c then advance >>= f else m).Consumes 0 := by
  refine consumes_kind_bind fun k => ?_
  split_ifs with hk
  · exact (consumesAt_advance_bind (hk ▸ hc) hf).zero
  · exact hm.at

theorem consumes_expect (hc : c ≠ .eof) : (expect c).Consumes 1 := by
  refine consumes_kind_bind fun k => ?_
  split_ifs with hk
  · exact consumesAt_advance (hk ▸ hc)
  · exact (consumes_fail _).at

theorem consumes_expectIdent : expectIdent.Consumes 1 := by
  refine consumes_kind_bind fun k => ?_
  split_ifs with hk
  · exact consumesAt_advance_bind (by rw [hk]; decide) fun _ => consumes_pure _
  · exact (consumes_fail _).at

/-! ## Repetitions -/

section Many

variable {test : TokenKind → Bool}

theorem consumes_manyUpTo (h : ∀ c, test c = true → m.ConsumesAt c 0) (k : Nat) : (manyUpTo test m k).Consumes 0 := by
  induction k with
  | zero => exact consumes_pure []
  | succ k ih =>
    refine consumes_kind_bind fun c => ?_
    split_ifs with htest
    · exact (h c htest).bind fun _ => ih.first fun _ => consumes_pure _
    · exact (consumes_pure []).at

theorem consumes_many (h : ∀ c, test c = true → m.ConsumesAt c 0) : (many test m).Consumes 0 :=
  fun p => consumes_manyUpTo h (p.remaining + 1) p

/-- A repetition whose items move past no end mark wherever they begin. -/
theorem Consumes.many (h : m.Consumes n) : (many test m).Consumes 0 := consumes_many fun _ _ => h.zero.at

end Many

/-- An item behind a comma. -/
theorem Consumes.afterComma (h : m.Consumes n) (hc : decide (c = .comma) = true) :
    (advance >>= fun _ => m).ConsumesAt c 1 :=
  consumesAt_advance_bind (by rw [of_decide_eq_true hc]; decide) fun _ => h.zero

theorem Consumes.commaList (h : m.Consumes n) : (commaList m).Consumes n :=
  h.first fun _ => (consumes_many fun _ hc => (h.afterComma hc).zero).first fun _ => consumes_pure _

theorem Consumes.parenthesised (h : m.Consumes n) : (parenthesised m).Consumes 1 := by
  have hclose (as : List α) : (expect .rParen >>= fun _ => pure as).Consumes 0 :=
    ((consumes_expect (by decide)).first fun _ => consumes_pure _).zero
  refine (consumes_expect (by decide)).first fun _ => consumes_kind.first fun _ => .ite ?_ ?_
  · exact (consumes_pure []).first hclose
  · exact h.zero.commaList.first hclose

end Parse

/-! ## The grammar -/

namespace Dispatch

variable {c : TokenKind}

theorem operand_not_eof {form : OperandForm} (h : standard.operand c = some form) : c ≠ .eof := by
  rintro rfl
  cases h

theorem continuation_not_eof {form : InfixForm × Power} (h : standard.continuation c = some form) : c ≠ .eof := by
  rintro rfl
  cases h

theorem statement_not_eof {form : StmtForm} (h : standard.statement c = some form) : c ≠ .eof := by
  rintro rfl
  cases h

end Dispatch

namespace Grammar

open Parse

variable {expr : Power → Parse Expr} {stmt : Parse Stmt} {c : TokenKind}

/-! ### Expressions -/

theorem consumes_nameForm (h : ∀ power, (expr power).Consumes n) : (nameForm expr).Consumes 1 := by
  have hbuild {build : ExprInfo → Expr} (s : Position) : (do newExpr build (← spanFrom s)).Consumes 0 :=
    (consumes_spanFrom s).first fun _ => consumes_newExpr _ _
  refine consumes_start.second fun _ => consumes_expectIdent.first fun _ => consumes_kind_bind fun c => ?_
  split
  · exact ((h .lowest).parenthesised.zero.first fun _ => hbuild _).at
  · refine (consumesAt_advance_bind (by decide) fun _ => (h .lowest).zero.first fun _ => ?_).zero
    exact (consumes_expect (by decide)).zero.first fun _ => hbuild _
  · exact (hbuild _).at

theorem consumesAt_operand (h : ∀ power, (expr power).Consumes n) (form : OperandForm) (hc : c ≠ .eof) :
    (operand expr form).ConsumesAt c 1 := by
  cases form with
  | literal => exact consumesAt_advance_bind hc fun _ => consumes_newExpr _ _
  | sign => exact consumesAt_advance_bind hc fun _ => (h .unary).zero.first fun _ => consumes_newExpr _ _
  | name => exact (consumes_nameForm h).at
  | group =>
    refine consumesAt_advance_bind hc fun _ => (h .lowest).zero.first fun _ => ?_
    exact (consumes_expect (by decide)).zero.first fun _ => consumes_pure _

theorem consumesAt_continueWith (h : ∀ power, (expr power).Consumes n) (power : Power) (left : Expr)
    (form : InfixForm) (hc : c ≠ .eof) : (continueWith expr power left form).ConsumesAt c 1 := by
  cases form with
  | binary => exact consumesAt_advance_bind hc fun _ => (h power).zero.first fun _ => consumes_newExpr _ _
  | assignment => exact consumesAt_advance_bind hc fun _ => (h .lowest).zero.first fun _ => consumes_newExpr _ _

theorem consumes_extendUpTo (h : ∀ power, (expr power).Consumes n) (power : Power) (k : Nat) :
    ∀ left, (extendUpTo .standard expr power k left).Consumes 0 := by
  induction k with
  | zero => exact fun left => consumes_pure left
  | succ k ih =>
    refine fun left => consumes_kind_bind fun c => ?_
    split
    · exact (consumes_pure left).at
    · rename_i form q hform
      split_ifs
      · exact ((consumesAt_continueWith h q left form (Dispatch.continuation_not_eof hform)).bind ih).zero
      · exact (consumes_pure left).at

theorem consumes_extend (h : ∀ power, (expr power).Consumes n) (power : Power) (left : Expr) :
    (extend .standard expr power left).Consumes 0 :=
  fun p => consumes_extendUpTo h power p.remaining left p

theorem consumes_expressionUpTo (k : Nat) : ∀ power, (expressionUpTo .standard k power).Consumes 1 := by
  induction k with
  | zero => exact fun _ => consumes_illegalPrimary
  | succ k ih =>
    refine fun power => consumes_kind_bind fun c => ?_
    split
    · exact consumes_illegalPrimary.at
    · rename_i form hform
      exact (consumesAt_operand ih form (Dispatch.operand_not_eof hform)).bind (consumes_extend ih power)

theorem consumes_expression (power : Power) : (expression .standard power).Consumes 1 :=
  fun p => consumes_expressionUpTo (p.remaining + 1) power p

/-! ### Declarations -/

theorem consumes_typeName : typeName.Consumes 1 := by
  refine consumes_kind_bind fun c => ?_
  split
  · rename_i t ht
    refine consumesAt_advance_bind ?_ fun _ => consumes_pure _
    rintro rfl
    cases ht
  · exact (consumes_fail _).at

theorem consumes_arraySize : arraySize.Consumes 0 := by
  refine consumes_kind_bind fun c => ?_
  split_ifs with hc
  · intro p hp
    rw [current_bind]
    have hnext (n : Nat) : (advance >>= fun _ => pure (some n) : Parse (Option Nat)).ConsumesAt c 1 :=
      consumesAt_advance_bind (by rw [hc]; decide) fun _ => consumes_pure _
    cases boundedDecimal? maxArraySize p.current.spelling.toList with
    | none => exact consumes_fail _ p
    | some n => exact (hnext n).zero p hp
  · exact (consumes_pure none).at

theorem consumes_declaratorSuffix (base : Ty) : (declaratorSuffix base).Consumes 0 := by
  refine consumes_when (by decide) (fun _ => consumes_arraySize.first fun _ => ?_) (consumes_pure base)
  exact (consumes_expect (by decide)).zero.first fun _ => consumes_pure _

theorem consumes_initialiser : (initialiser .standard).Consumes 1 := by
  refine consumes_kind_bind fun c => ?_
  split_ifs with hc
  · refine consumesAt_advance_bind (by rw [hc]; decide) fun _ => ?_
    refine (consumes_expression _).commaList.zero.first fun _ => (consumes_expect (by decide)).zero.first fun _ => ?_
    exact (consumes_spanFrom _).first fun _ => consumes_newExpr _ _
  · exact (consumes_expression _).at

theorem consumes_initDeclarator (start : Position) (base : Ty) (ident : Ident) (isGlobal : Bool) :
    (initDeclarator .standard start base ident isGlobal).Consumes 0 := by
  have hrest (ty : Ty) (init : Option Expr) : (do
      let span ← spanFrom start
      let decl : VarDecl := ⟨⟨0⟩, ident, ty, span, isGlobal, init⟩
      let id ← newDecl decl.kind ident ty span
      return { decl with id } : Parse VarDecl).Consumes 0 :=
    (consumes_spanFrom _).first fun _ => (consumes_newDecl _ _ _ _).first fun _ => consumes_pure _
  refine (consumes_declaratorSuffix base).first fun ty => ?_
  refine consumes_kind_bind fun c => ?_
  split_ifs with hc
  · exact (consumesAt_advance_bind (by rw [hc]; decide) fun _ => consumes_initialiser.zero.map.first (hrest ty)).zero
  · exact ((consumes_pure none).first (hrest ty)).at

/-- A further variable of a list, behind its comma. -/
theorem consumes_nextDeclarator (base : Ty) (isGlobal : Bool) : (do
    let start ← Parse.start
    let ident ← expectIdent
    initDeclarator .standard start base ident isGlobal : Parse VarDecl).Consumes 1 :=
  consumes_start.second fun _ => consumes_expectIdent.first fun _ => consumes_initDeclarator _ _ _ _

theorem consumes_varDecls (start : Position) (base : Ty) (first : Ident) (isGlobal : Bool) :
    (varDecls .standard start base first isGlobal).Consumes 1 := by
  refine (consumes_initDeclarator _ _ _ _).second fun _ => ?_
  refine (consumes_many fun _ hc => ((consumes_nextDeclarator base isGlobal).afterComma hc).zero).second fun _ => ?_
  exact (consumes_expect (by decide)).first fun _ => consumes_pure _

theorem consumes_param : param.Consumes 1 := by
  refine consumes_start.second fun _ => consumes_typeName.first fun _ => consumes_expectIdent.zero.first fun _ => ?_
  refine (consumes_declaratorSuffix _).first fun _ => (consumes_spanFrom _).first fun _ => ?_
  exact (consumes_newDecl _ _ _ _).first fun _ => consumes_pure _

/-! ### Statements -/

theorem consumes_finish (start : Position) (build : StmtInfo → Stmt) : (finish start build).Consumes 0 :=
  (consumes_spanFrom _).first fun _ => consumes_newStmt _ _

theorem consumes_localDecls : (localDecls .standard).Consumes 1 := by
  refine consumes_start.second fun _ => consumes_typeName.first fun _ => consumes_expectIdent.zero.first fun _ => ?_
  exact (consumes_varDecls _ _ _ _).zero

theorem consumes_blockWith (h : stmt.Consumes n) : (blockWith .standard stmt).Consumes 1 := by
  refine (consumes_expect (by decide)).first fun _ => consumes_localDecls.many.first fun _ => h.many.first fun _ => ?_
  refine (consumes_expect (by decide)).zero.first fun _ => ?_
  exact (consumes_finish _ _).first fun _ => consumes_pure _

theorem consumes_condition : (condition .standard).Consumes 1 := by
  refine (consumes_expect (by decide)).first fun _ => (consumes_expression _).zero.first fun _ => ?_
  exact (consumes_expect (by decide)).zero.first fun _ => consumes_pure _

theorem consumes_optionalExpr (hc : c ≠ .eof) : (optionalExpr .standard c).Consumes 1 := by
  have hrest (e : Option Expr) : (expect c >>= fun _ => pure e).Consumes 1 :=
    (consumes_expect hc).first fun _ => consumes_pure _
  refine consumes_kind.second fun _ => .ite ?_ ?_
  · exact (consumes_pure none).second hrest
  · exact (consumes_expression _).zero.map.second hrest

theorem consumesAt_statementForm (h : stmt.Consumes n) (form : StmtForm) (hc : c ≠ .eof) :
    (statementForm .standard stmt form).ConsumesAt c 1 := by
  have hfinish (start : Position) (build : StmtInfo → Stmt) := consumes_finish start build
  have hoptional {c : TokenKind} (hc : c ≠ .eof) := (consumes_optionalExpr hc).zero
  cases form with
  | block => exact (consumes_blockWith h).map.at
  | ifForm =>
    refine consumesAt_advance_bind hc fun _ => consumes_condition.zero.first fun _ => h.zero.first fun _ => ?_
    exact consumes_when (by decide) (fun _ => h.zero.first fun _ => hfinish _ _) (hfinish _ _)
  | whileForm =>
    refine consumesAt_advance_bind hc fun _ => consumes_condition.zero.first fun _ => h.zero.first fun _ => ?_
    exact hfinish _ _
  | forForm =>
    refine consumesAt_advance_bind hc fun _ => (consumes_expect (by decide)).zero.first fun _ => ?_
    refine (hoptional (by decide)).first fun _ => (hoptional (by decide)).first fun _ => ?_
    exact (hoptional (by decide)).first fun _ => h.zero.first fun _ => hfinish _ _
  | breakForm | continueForm =>
    exact consumesAt_advance_bind hc fun _ => (consumes_expect (by decide)).zero.first fun _ => hfinish _ _
  | returnForm => exact consumesAt_advance_bind hc fun _ => (hoptional (by decide)).first fun _ => hfinish _ _
  | emptyForm => exact consumesAt_advance_bind hc fun _ => hfinish _ _

theorem consumes_exprStatement : (exprStatement .standard).Consumes 1 := by
  refine consumes_start.second fun _ => (consumes_expression _).first fun _ => ?_
  exact (consumes_expect (by decide)).zero.first fun _ => consumes_finish _ _

theorem consumes_statementUpTo (k : Nat) : (statementUpTo .standard k).Consumes 1 := by
  induction k with
  | zero => exact consumes_illegalPrimary
  | succ k ih =>
    refine consumes_kind_bind fun c => ?_
    split
    · rename_i form hform
      exact consumesAt_statementForm ih form (Dispatch.statement_not_eof hform)
    · exact consumes_exprStatement.at

theorem consumes_statement : (statement .standard).Consumes 1 :=
  fun p => consumes_statementUpTo (p.remaining + 1) p

theorem consumes_block : (block .standard).Consumes 1 := consumes_blockWith consumes_statement

/-! ### Programs -/

theorem consumes_function (start : Position) (ty : Ty) (ident : Ident) :
    (function .standard start ty ident).Consumes 1 := by
  refine consumes_param.parenthesised.first fun _ => consumes_block.zero.first fun _ => ?_
  exact (consumes_spanFrom _).first fun _ => (consumes_newDecl _ _ _ _).first fun _ => consumes_pure _

theorem consumes_topLevel : (topLevel .standard).Consumes 1 := by
  refine consumes_start.second fun _ => consumes_typeName.first fun _ => consumes_expectIdent.zero.first fun _ => ?_
  refine consumes_kind.first fun _ => .ite ?_ ?_
  · exact (consumes_function _ _ _).zero.first fun _ => consumes_pure _
  · exact (consumes_varDecls _ _ _ _).zero.first fun _ => consumes_pure _

theorem consumes_program : (program .standard).Consumes 0 :=
  consumes_start.first fun _ => consumes_topLevel.many.first fun _ => consumes_current.first fun _ => consumes_pure _

end Grammar

end VCLang
