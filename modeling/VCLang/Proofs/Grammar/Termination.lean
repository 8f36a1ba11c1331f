/-
The recursion of a parse comes to an end. Its bounds are not part of what is parsed: before a form occurs inside itself,
and before a loop comes round, a token has been moved past, so that no parse goes deeper or goes round more often than
there are tokens up to the end mark. What would be done beyond that depth is never asked for.
-/
import VCLang.Proofs.Grammar.Progress
import VCLang.Proofs.Grammar.Recognition
namespace VCLang

namespace Parse

variable {α β γ : Type} {n k : Nat} {c : TokenKind}

/-! ## Steps that agree up to a depth -/

/-- Two steps do the same from a token of some kind, if fewer than `n` tokens follow. -/
def AgreeAt (c : TokenKind) (n : Nat) (m m' : Parse α) : Prop :=
  ∀ p : Parser, p.current.kind = c → p.Bounded → p.remaining < n → m p = m' p

/-- Two steps do the same wherever fewer than `n` tokens follow. -/
def Agree (n : Nat) (m m' : Parse α) : Prop := ∀ p : Parser, p.Bounded → p.remaining < n → m p = m' p

variable {m m' : Parse α} {f f' : α → Parse β}

theorem agree_zero (m m' : Parse α) : Agree 0 m m' := fun _ _ h => absurd h (Nat.not_lt_zero _)

theorem Agree.refl (m : Parse α) : Agree n m m := fun _ _ _ => rfl

theorem AgreeAt.refl (m : Parse α) : AgreeAt c n m m := fun _ _ _ _ => rfl

theorem Agree.at (h : Agree n m m') : AgreeAt c n m m' := fun p _ => h p

theorem Agree.mono (h : Agree n m m') (hle : k ≤ n) : Agree k m m' := fun p hp hk => h p hp (hk.trans_le hle)

theorem AgreeAt.mono (h : AgreeAt c n m m') (hle : k ≤ n) : AgreeAt c k m m' :=
  fun p hc hp hk => h p hc hp (hk.trans_le hle)

theorem agree_kind_bind {f f' : TokenKind → Parse β} (h : ∀ c, AgreeAt c n (f c) (f' c)) :
    Agree n (kind >>= f) (kind >>= f') := fun p => h _ p rfl

/-- Behind a step that has moved on, fewer tokens follow. -/
theorem agreeAt_bind (hm : m.ConsumesAt c k) (hf : ∀ a, Agree n (f a) (f' a)) :
    AgreeAt c (n + k) (m >>= f) (m >>= f') := by
  intro p hc hp hn
  have hfirst := hm p hc
  rw [bind_apply, bind_apply]
  generalize m p = o at hfirst
  cases hfirst with
  | error => rfl
  | @ok a q ts hmoves hk =>
    have hremaining := hmoves.remaining hp
    exact hf a q (hmoves.tokens hp).2 (by omega)

/-- What goes on in the same way behind the same step. -/
theorem Agree.behind (hm : m.Consumes 0) (hf : ∀ a, Agree n (f a) (f' a)) : Agree n (m >>= f) (m >>= f') :=
  fun p => agreeAt_bind hm.at hf p rfl

/-- What goes on in the same way behind a step that moves on agrees one token earlier. -/
theorem Agree.next (hm : m.Consumes 1) (hf : ∀ a, Agree n (f a) (f' a)) : Agree (n + 1) (m >>= f) (m >>= f') :=
  fun p => agreeAt_bind hm.at hf p rfl

theorem AgreeAt.bind (h : AgreeAt c (n + k) m m') (hm : m.ConsumesAt c k) (hf : ∀ a, Agree n (f a) (f' a)) :
    AgreeAt c (n + k) (m >>= f) (m' >>= f') := by
  intro p hc hp hn
  have hfirst : (m' >>= f') p = (m >>= f') p := by rw [bind_apply, bind_apply, h p hc hp hn]
  rw [hfirst]
  exact agreeAt_bind hm hf p hc hp hn

theorem Agree.bind (h : Agree n m m') (hm : m.Consumes 0) (hf : ∀ a, Agree n (f a) (f' a)) :
    Agree n (m >>= f) (m' >>= f') :=
  fun p => h.at.bind hm.at hf p rfl

/-- Steps that agree, with the same behind them. -/
theorem Agree.before (h : Agree n m m') (f : α → Parse β) : Agree n (m >>= f) (m' >>= f) := by
  intro p hp hn
  rw [bind_apply, bind_apply, h p hp hn]

/-- Where it is known that the token is not an end mark, moving on leads to where steps agree. -/
theorem agreeAt_advance {f f' : Token → Parse β} (hc : c ≠ .eof) (hf : ∀ t, Agree n (f t) (f' t)) :
    AgreeAt c (n + 1) (advance >>= f) (advance >>= f') :=
  agreeAt_bind (consumesAt_advance hc) hf

/-! ### Repetitions -/

section Many

variable {test : TokenKind → Bool}

theorem agree_manyUpTo (hm : ∀ c, test c = true → m.ConsumesAt c 0) (h : ∀ c, test c = true → AgreeAt c n m m')
    (k : Nat) : Agree n (manyUpTo test m k) (manyUpTo test m' k) := by
  induction k with
  | zero => exact .refl _
  | succ k ih =>
    refine agree_kind_bind fun c => ?_
    split_ifs with htest
    · exact AgreeAt.bind (h c htest) (hm c htest) fun a => ih.before _
    · exact .refl _

theorem agree_many (hm : ∀ c, test c = true → m.ConsumesAt c 0) (h : ∀ c, test c = true → AgreeAt c n m m') :
    Agree n (many test m) (many test m') :=
  fun p => agree_manyUpTo hm h (p.remaining + 1) p

end Many

theorem Agree.commaList (h : Agree n m m') (hm : m.Consumes k) : Agree n (commaList m) (commaList m') := by
  refine h.bind hm.zero fun a => Agree.before (agree_many (fun c hc => (hm.afterComma hc).zero) fun c hc => ?_) _
  have hne : c ≠ .eof := by
    rw [of_decide_eq_true hc]
    decide
  exact (agreeAt_advance hne fun _ => h).mono (Nat.le_succ n)

theorem Agree.parenthesised (h : Agree n m m') (hm : m.Consumes k) :
    Agree (n + 1) (parenthesised m) (parenthesised m') := by
  refine .next (consumes_expect (by decide)) fun _ => agree_kind_bind fun c => ?_
  split_ifs
  · exact .refl _
  · exact ((h.commaList hm).before _).at

end Parse

/-! ## One level of the grammar -/

namespace Grammar

open Parse

variable {expr expr' : Power → Parse Expr} {stmt stmt' : Parse Stmt} {n k : Nat} {c : TokenKind}

theorem agree_nameForm (hm : ∀ power, (expr power).Consumes k) (h : ∀ power, Agree n (expr power) (expr' power)) :
    Agree (n + 1) (nameForm expr) (nameForm expr') := by
  refine .behind consumes_start fun s => .next consumes_expectIdent fun ident => agree_kind_bind fun c => ?_
  split
  · have hargs := ((h .lowest).parenthesised (hm .lowest)).mono (Nat.le_succ n)
    exact (hargs.before _).at
  · exact (agreeAt_advance (by decide) fun _ => (h .lowest).before _).mono (Nat.le_succ n)
  · exact .refl _

theorem agreeAt_operand (hm : ∀ power, (expr power).Consumes k) (h : ∀ power, Agree n (expr power) (expr' power))
    (form : OperandForm) (hc : c ≠ .eof) : AgreeAt c (n + 1) (operand expr form) (operand expr' form) := by
  cases form with
  | literal => exact .refl _
  | sign => exact agreeAt_advance hc fun _ => (h .unary).before _
  | name => exact (agree_nameForm hm h).at
  | group => exact agreeAt_advance hc fun _ => (h .lowest).before _

theorem agreeAt_continueWith (h : ∀ power, Agree n (expr power) (expr' power)) (power : Power) (left : Expr)
    (form : InfixForm) (hc : c ≠ .eof) :
    AgreeAt c (n + 1) (continueWith expr power left form) (continueWith expr' power left form) := by
  cases form with
  | binary => exact agreeAt_advance hc fun _ => (h power).before _
  | assignment => exact agreeAt_advance hc fun _ => (h .lowest).before _

theorem agree_extendUpTo (hm : ∀ power, (expr power).Consumes k) (h : ∀ power, Agree n (expr power) (expr' power))
    (power : Power) (i : Nat) :
    ∀ left, Agree n (extendUpTo .standard expr power i left) (extendUpTo .standard expr' power i left) := by
  induction i with
  | zero => exact fun _ => .refl _
  | succ i ih =>
    refine fun left => agree_kind_bind fun c => ?_
    split
    · exact .refl _
    · rename_i form q hform
      have hc := Dispatch.continuation_not_eof hform
      split_ifs
      · have hfirst := (agreeAt_continueWith h q left form hc).mono (Nat.le_succ n)
        exact hfirst.bind (consumesAt_continueWith hm q left form hc).zero ih
      · exact .refl _

theorem agree_extend (hm : ∀ power, (expr power).Consumes k) (h : ∀ power, Agree n (expr power) (expr' power))
    (power : Power) (left : Expr) : Agree n (extend .standard expr power left) (extend .standard expr' power left) :=
  fun p => agree_extendUpTo hm h power p.remaining left p

theorem agree_blockWith (hm : stmt.Consumes k) (h : Agree n stmt stmt') :
    Agree (n + 1) (blockWith .standard stmt) (blockWith .standard stmt') := by
  refine .next (consumes_expect (by decide)) fun _ => .behind consumes_localDecls.many fun _ => ?_
  exact Agree.before (agree_many (fun _ _ => hm.zero.at) fun _ _ => h.at) _

theorem agreeAt_statementForm (hm : stmt.Consumes k) (h : Agree n stmt stmt') (form : StmtForm) (hc : c ≠ .eof) :
    AgreeAt c (n + 1) (statementForm .standard stmt form) (statementForm .standard stmt' form) := by
  have hoptional {c : TokenKind} (hc : c ≠ .eof) := (consumes_optionalExpr hc).zero
  cases form with
  | block => exact ((agree_blockWith hm h).before _).at
  | ifForm =>
    refine agreeAt_advance hc fun _ => .behind consumes_condition.zero fun _ => h.bind hm.zero fun _ => ?_
    refine agree_kind_bind fun c => ?_
    split_ifs with helse
    · exact (agreeAt_advance (by rw [helse]; decide) fun _ => h.before _).mono (Nat.le_succ n)
    · exact .refl _
  | whileForm => exact agreeAt_advance hc fun _ => .behind consumes_condition.zero fun _ => h.before _
  | forForm =>
    refine agreeAt_advance hc fun _ => .behind (consumes_expect (by decide)).zero fun _ => ?_
    refine .behind (hoptional (by decide)) fun _ => .behind (hoptional (by decide)) fun _ => ?_
    exact .behind (hoptional (by decide)) fun _ => h.before _
  | breakForm | continueForm | returnForm | emptyForm => exact .refl _

end Grammar

/-! ## Recursions without a bound -/

namespace Parse

variable {α β γ : Type} {n : Nat}

/-- One round of a repetition, which goes on with `loop`. -/
def manyStep (test : TokenKind → Bool) (item : Parse α) (loop : Parse (List α)) : Parse (List α) := do
  if test (← kind) then
    let a ← item
    let as ← loop
    return a :: as
  else return []

theorem manyUpTo_succ (test : TokenKind → Bool) (item : Parse α) (n : Nat) :
    manyUpTo test item (n + 1) = manyStep test item (manyUpTo test item n) := rfl

/-- A recursion comes to an end with an outcome, at a depth of `n` at most: whatever is done beyond that depth, the
outcome is the same. -/
def Finishes (step : β → β) (run : β → Except Error α × Parser) (n : Nat) (o : Except Error α × Parser) : Prop :=
  ∀ rest k, n < k → run (step^[k] rest) = o

/-- A recursion with a bound of `n` agrees to that depth with the same recursion without it, if one level depends on
the next one a token later. -/
theorem agree_iterate {A : Nat → β → β → Prop} {step : β → β} {bounded : Nat → β} (hzero : ∀ x y, A 0 x y)
    (hbounded : ∀ k, bounded (k + 1) = step (bounded k))
    (hstep : ∀ n k x, A n (bounded k) x → A (n + 1) (step (bounded k)) (step x)) (rest : β) :
    ∀ {n k i : Nat}, n ≤ k → n ≤ i → A n (bounded k) (step^[i] rest) := by
  intro n
  -- on the depth: the bound and the number of unrolled levels are only known not to be smaller
  induction n with
  | zero => exact fun _ _ => hzero _ _
  | succ n ih =>
    intro k i hk hi
    obtain ⟨k, rfl⟩ := Nat.exists_eq_add_of_lt hk
    obtain ⟨i, rfl⟩ := Nat.exists_eq_add_of_lt hi
    rw [hbounded, Function.iterate_succ_apply']
    exact hstep n _ _ (ih (Nat.le_add_right n k) (Nat.le_add_right n i))

theorem agree_manyStep {test : TokenKind → Bool} {item : Parse α} {loop loop' : Parse (List α)}
    (hm : ∀ c, test c = true → item.ConsumesAt c 1) (h : Agree n loop loop') :
    Agree (n + 1) (manyStep test item loop) (manyStep test item loop') := by
  refine agree_kind_bind fun c => ?_
  split_ifs with htest
  · exact agreeAt_bind (hm c htest) fun a => h.before _
  · exact .refl _

theorem finishes_many {test : TokenKind → Bool} {item : Parse α} (hm : ∀ c, test c = true → item.ConsumesAt c 1)
    {p : Parser} (hp : p.Bounded) : Finishes (manyStep test item) (· p) p.remaining (many test item p) := by
  intro rest i hi
  have hagree := agree_iterate agree_zero (manyUpTo_succ test item) (fun _ _ _ h => agree_manyStep hm h) rest
    (Nat.le_refl (p.remaining + 1)) hi
  exact (hagree p hp (Nat.lt_succ_self _)).symm

end Parse

namespace Grammar

open Parse

variable {expr : Power → Parse Expr} {p : Parser}

/-- One level of an expression, whose parts are read by `expr`. -/
def expressionStep (d : Dispatch) (expr : Power → Parse Expr) (power : Power) : Parse Expr := do
  match d.operand (← kind) with
  | none => illegalPrimary
  | some form =>
    let left ← operand expr form
    extend d expr power left

theorem expressionUpTo_succ (d : Dispatch) (n : Nat) :
    expressionUpTo d (n + 1) = expressionStep d (expressionUpTo d n) := rfl

/-- One operator that goes on from an operand; `loop` goes on from there. -/
def extendStep (d : Dispatch) (expr : Power → Parse Expr) (power : Power) (loop : Expr → Parse Expr) (left : Expr) :
    Parse Expr := do
  match d.continuation (← kind) with
  | none => return left
  | some (form, q) =>
    if power.below q then
      let e ← continueWith expr q left form
      loop e
    else return left

theorem extendUpTo_succ (d : Dispatch) (expr : Power → Parse Expr) (power : Power) (n : Nat) :
    extendUpTo d expr power (n + 1) = extendStep d expr power (extendUpTo d expr power n) := rfl

/-- One level of a statement, whose parts are read by `stmt`. -/
def statementStep (d : Dispatch) (stmt : Parse Stmt) : Parse Stmt := do
  match d.statement (← kind) with
  | some form => statementForm d stmt form
  | none => exprStatement d

theorem statementUpTo_succ (d : Dispatch) (n : Nat) : statementUpTo d (n + 1) = statementStep d (statementUpTo d n) :=
  rfl

theorem agree_expressionStep {n k : Nat} {expr' : Power → Parse Expr} (hm : ∀ power, (expr power).Consumes k)
    (h : ∀ power, Agree n (expr power) (expr' power)) (power : Power) :
    Agree (n + 1) (expressionStep .standard expr power) (expressionStep .standard expr' power) := by
  refine agree_kind_bind fun c => ?_
  split
  · exact .refl _
  · rename_i form hform
    have hc := Dispatch.operand_not_eof hform
    exact (agreeAt_operand hm h form hc).bind (consumesAt_operand hm form hc) (agree_extend hm h power)

theorem finishes_expression (hp : p.Bounded) (power : Power) :
    Finishes (expressionStep .standard) (· power p) p.remaining (expression .standard power p) := by
  intro rest i hi
  have hagree := agree_iterate (A := fun n x y => ∀ power, Agree n (x power) (y power)) (fun _ _ _ => agree_zero _ _)
    (expressionUpTo_succ .standard) (fun _ k _ h => agree_expressionStep (consumes_expressionUpTo k) h) rest
    (Nat.le_refl (p.remaining + 1)) hi
  exact (hagree power p hp (Nat.lt_succ_self _)).symm

theorem agree_extendStep (hm : ∀ power, (expr power).Consumes 1) (power : Power) {n : Nat}
    (loop loop' : Expr → Parse Expr) (h : ∀ left, Agree n (loop left) (loop' left)) (left : Expr) :
    Agree (n + 1) (extendStep .standard expr power loop left) (extendStep .standard expr power loop' left) := by
  refine agree_kind_bind fun c => ?_
  split
  · exact .refl _
  · rename_i form q hform
    split_ifs
    · exact agreeAt_bind (consumesAt_continueWith hm q left form (Dispatch.continuation_not_eof hform)) h
    · exact .refl _

/-- At the last end mark no operator follows. -/
theorem extendUpTo_eof {left : Expr} {power : Power} (h : p.current.kind = .eof) (n : Nat) :
    extendUpTo .standard expr power n left p = (.ok left, p) := by
  cases n with
  | zero => rfl
  | succ n =>
    rw [extendUpTo, kind_bind, h]
    rfl

/-- No more operators follow than there are tokens. -/
theorem agree_extendUpTo_succ (hm : ∀ power, (expr power).Consumes 1) (power : Power) (n : Nat) :
    ∀ left, Agree (n + 1) (extendUpTo .standard expr power n left) (extendUpTo .standard expr power (n + 1) left) := by
  induction n with
  | zero =>
    intro left p hp hn
    -- the last token up to the end mark is that mark
    have heof : p.current.kind = .eof := by
      obtain ⟨t, ht, hk⟩ := hp
      rw [Parser.tokens, List.eq_nil_of_length_eq_zero (Nat.lt_one_iff.1 hn), List.map_nil, List.mem_singleton] at ht
      rw [← ht, hk]
    rw [extendUpTo_eof heof, extendUpTo_eof heof]
  | succ n ih => exact agree_extendStep hm power _ _ ih

theorem finishes_extend (hm : ∀ power, (expr power).Consumes 1) (hp : p.Bounded) (power : Power) (left : Expr) :
    Finishes (extendStep .standard expr power) (· left p) p.remaining (extend .standard expr power left p) := by
  intro rest i hi
  have hmore := agree_extendUpTo_succ hm power p.remaining left p hp (Nat.lt_succ_self _)
  have hagree := agree_iterate (A := fun n x y => ∀ left, Agree n (x left) (y left)) (fun _ _ _ => agree_zero _ _)
    (extendUpTo_succ .standard expr power) (fun _ _ => agree_extendStep hm power _) rest
    (Nat.le_refl (p.remaining + 1)) hi
  exact (hmore.trans (hagree left p hp (Nat.lt_succ_self _))).symm

theorem agree_statementStep {n k : Nat} {stmt stmt' : Parse Stmt} (hm : stmt.Consumes k) (h : Agree n stmt stmt') :
    Agree (n + 1) (statementStep .standard stmt) (statementStep .standard stmt') := by
  refine agree_kind_bind fun c => ?_
  split
  · rename_i form hform
    exact agreeAt_statementForm hm h form (Dispatch.statement_not_eof hform)
  · exact .refl _

theorem finishes_statement (hp : p.Bounded) :
    Finishes (statementStep .standard) (· p) p.remaining (statement .standard p) := by
  intro rest i hi
  have hagree := agree_iterate agree_zero (statementUpTo_succ .standard)
    (fun _ k _ h => agree_statementStep (consumes_statementUpTo k) h) rest (Nat.le_refl (p.remaining + 1)) hi
  exact (hagree p hp (Nat.lt_succ_self _)).symm

/-! ## The parser -/

/-- The loops of the grammar, by the tokens that they go round at and what they go round with. -/
inductive Loop : {α : Type} → (TokenKind → Bool) → Parse α → Prop
  /-- Arguments and elements. -/
  | expressions : Loop (· = .comma) (do let _ ← advance; expression .standard .lowest)
  | params : Loop (· = .comma) (do let _ ← advance; param)
  | declarators (base : Ty) (isGlobal : Bool) : Loop (· = .comma) (do
      let _ ← advance
      let start ← Parse.start
      let ident ← expectIdent
      initDeclarator .standard start base ident isGlobal)
  | localDecls : Loop TokenKind.isType (localDecls .standard)
  | statements : Loop (· ≠ .rCurly) (statement .standard)
  | topLevel : Loop (· ≠ .eof) (topLevel .standard)

/-- Each round of a loop moves past a token, or ends the parse. -/
theorem Loop.consumesAt {α : Type} {test : TokenKind → Bool} {item : Parse α} (h : Loop test item) :
    ∀ c, test c = true → item.ConsumesAt c 1 := by
  intro c hc
  cases h with
  | expressions => exact (consumes_expression _).afterComma hc
  | params => exact consumes_param.afterComma hc
  | declarators base isGlobal => exact (consumes_nextDeclarator base isGlobal).afterComma hc
  | localDecls => exact consumes_localDecls.at
  | statements => exact consumes_statement.at
  | topLevel => exact consumes_topLevel.at

/-- What is moved past from a parser: no end mark, and each form that is found has a token at least. -/
structure Proceeds (p : Parser) : Prop where
  typeName : Advances 1 p (typeName p)
  expression : ∀ power, Advances 1 p (expression .standard power p)
  initialiser : Advances 1 p (initialiser .standard p)
  statement : Advances 1 p (statement .standard p)
  block : Advances 1 p (block .standard p)
  varDecls : ∀ start base first isGlobal, Advances 1 p (varDecls .standard start base first isGlobal p)
  /-- A program may be empty. -/
  program : Advances 0 p (program .standard p)

/-- From a parser all recursions and all loops come to an end, and go no deeper and no more often round than there are
tokens. Nothing else in the grammar is repeated. -/
structure Ends (p : Parser) : Prop where
  expression : ∀ power, Finishes (expressionStep .standard) (· power p) p.remaining (expression .standard power p)
  operators : ∀ power left, Finishes (extendStep .standard (Grammar.expression .standard) power) (· left p) p.remaining
    (extend .standard (Grammar.expression .standard) power left p)
  statement : Finishes (statementStep .standard) (· p) p.remaining (statement .standard p)
  loop : ∀ {α : Type} {test : TokenKind → Bool} {item : Parse α}, Loop test item →
    Finishes (manyStep test item) (· p) p.remaining (many test item p)

theorem bounded_ofString (source : String) : (Parser.ofString source).Bounded := by
  obtain ⟨front, hfront, -⟩ := (lexemes_cut source).eof_last
  rw [Parser.Bounded, tokens_ofString, hfront]
  exact ⟨_, List.mem_append_right front List.mem_cons_self, rfl⟩

/-- Whatever the tokens are, if there is an end mark among them, the parser comes to an end in front of it; in the
parse of a text it moves past tokens of the text that stand before the end mark, past each of them once at most. -/
theorem parser_ends :
    (∀ p : Parser, Proceeds p) ∧ (∀ p : Parser, p.Bounded → Ends p) ∧
      ∀ source, ∃ ts, (Parser.ofString source).MovesOver ts (program .standard (.ofString source)).2 ∧
        ts <+: (tokenize source).1.takeWhile (·.kind ≠ .eof) := by
  refine ⟨fun p => ?_, fun p hp => ?_, fun source => ?_⟩
  · exact ⟨consumes_typeName p, fun power => consumes_expression power p, consumes_initialiser p, consumes_statement p,
      consumes_block p, fun start base first isGlobal => consumes_varDecls start base first isGlobal p,
      consumes_program p⟩
  · exact ⟨finishes_expression hp, finishes_extend consumes_expression hp, finishes_statement hp,
      fun h => finishes_many h.consumesAt hp⟩
  · obtain ⟨ts, hmoves⟩ := (consumes_program (.ofString source)).exists_movesOver
    refine ⟨ts, hmoves, ?_⟩
    rw [← tokens_ofString, (hmoves.tokens (bounded_ofString source)).1, List.takeWhile_append_of_pos]
    · exact List.prefix_append _ _
    · exact fun t ht => decide_eq_true (hmoves.not_eof t ht)

/-- A sign with nothing to stand before but the end mark, behind which there are more tokens: the parser stops at the
mark with an error. -/
theorem parser_ends_truncated :
    let p : Parser := ⟨⟨.minus, "-", .dummy⟩, [⟨⟨.eof, "$", .dummy⟩, []⟩, ⟨⟨.intLiteral, "1", .dummy⟩, []⟩], .first,
      .empty, []⟩
    p.Bounded ∧ Proceeds p ∧ Ends p ∧ (expression .standard .lowest p).1.toBool = false ∧
      (expression .standard .lowest p).2.tokens = p.advance.tokens := by
  intro p
  have hp : p.Bounded := ⟨⟨.eof, "$", .dummy⟩, .tail _ (.head _), rfl⟩
  exact ⟨hp, parser_ends.1 p, parser_ends.2.1 p hp, rfl, rfl⟩

end Grammar

end VCLang
