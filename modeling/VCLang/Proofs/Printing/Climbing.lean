/-
Reading expressions by the powers of their operators. An expression has many spellings: where it stands beside an
operator that binds as tightly or tighter it needs parentheses, and anywhere it may have more of them.

Operators are read in a loop that carries the left operand, so that what is proved of a spelling is not that it is read
but that the loop comes to the expression: wherever its words stand, at a power that its root binds tighter than, the
reading goes on from this expression with what follows. So every spelling of an expression is read as this expression,
at every power, up to a token that does not go on at this power.
-/
import VCLang.Grammar.Expression
import VCLang.Proofs.Grammar.Reports
import VCLang.Proofs.Printing.Reading
namespace VCLang

/-! ## Operators -/

namespace Operator

/-- An operator that stands between operands. -/
def IsInfix (op : Operator) : Prop :=
  ∃ k q, Dispatch.standard.continuation k = some (.binary, q) ∧ op.spelling = k.spelling

/-- An operator that stands in front of its operand. -/
def IsSign (op : Operator) : Prop := ∃ k, Dispatch.standard.operand k = some .sign ∧ op.spelling = k.spelling

theorem word_eq {op : Operator} {k : TokenKind} (h : op.spelling = k.spelling) : op.word = k.word := by
  rw [word, kind, h, TokenKind.ofSpelling?_spelling]
  rfl

theorem IsInfix.continuation {op : Operator} (h : op.IsInfix) :
    Dispatch.standard.continuation op.word.kind = some (.binary, op.power) := by
  obtain ⟨k, q, hk, hs⟩ := h
  have hkind : op.kind = k := congrArg Word.kind (word_eq hs)
  have hpower : op.power = q := by
    rw [power, hkind, Dispatch.power?, hk]
    rfl
  rw [hpower, ← hk, ← hkind]
  rfl

theorem IsSign.operand {op : Operator} (h : op.IsSign) : Dispatch.standard.operand op.word.kind = some .sign := by
  obtain ⟨k, hk, hs⟩ := h
  rw [word_eq hs]
  exact hk

theorem IsInfix.below {op : Operator} (h : op.IsInfix) :
    Power.assignment.below op.power = true ∧ op.power.below .unary = true := by
  have hc := h.continuation
  generalize op.word.kind = k at hc
  generalize op.power = q at hc ⊢
  cases k <;> cases hc <;> decide

end Operator

/-! ## Spellings -/

/-- Words that spell an expression where operators between operands need at least a rank, unless they are inside
parentheses. A left operand may bind as tightly as its operator and a right one must bind tighter; the operand of a
sign may have no such operator, and the target of an assignment may be no assignment. Parentheses may stand around any
expression. -/
inductive Expr.Spelt : Nat → Expr → List Word → Prop
  | group {least : Nat} {e : Expr} {ws : List Word} : Spelt (Power.lowest.rank + 1) e ws →
    Spelt least e (Word.parenthesised ws)
  | binary {least : Nat} {info : ExprInfo} {op : Operator} {left right : Expr} {lw rw : List Word} : op.IsInfix →
    least ≤ op.power.rank → Spelt op.power.rank left lw → Spelt (op.power.rank + 1) right rw →
    Spelt least (.binary info op left right) (lw ++ op.word :: rw)
  | unary {least : Nat} {info : ExprInfo} {op : Operator} {operand : Expr} {ws : List Word} : op.IsSign →
    Spelt (Power.unary.rank + 1) operand ws → Spelt least (.unary info op operand) (op.word :: ws)
  | assign {least : Nat} {info : ExprInfo} {target value : Expr} {tw vw : List Word} :
    least ≤ Power.assignment.rank → Spelt (Power.assignment.rank + 1) target tw →
    Spelt (Power.lowest.rank + 1) value vw → Spelt least (.assign info target value) (tw ++ TokenKind.eq.word :: vw)
  | var {least : Nat} {info : ExprInfo} {ident : Ident} : Spelt least (.var info ident) [ident.word]
  | arrayAccess {least : Nat} {info : ExprInfo} {ident : Ident} {index : Expr} {ws : List Word} :
    Spelt (Power.lowest.rank + 1) index ws → Spelt least (.arrayAccess info ident index)
      (ident.word :: TokenKind.lBracket.word :: (ws ++ [TokenKind.rBracket.word]))
  | call {least : Nat} {info : ExprInfo} {ident : Ident} {args : List Expr} {wss : List (List Word)} :
    args.length = wss.length → (∀ a ∈ args.zip wss, Spelt (Power.lowest.rank + 1) a.1 a.2) →
    Spelt least (.call info ident args) (ident.word :: Word.parenthesised (Word.separated wss))
  | literal {least : Nat} {info : ExprInfo} {value : Literal} : Spelt least (.literal info value) [value.word]

/-- Whether the last of some words is an identifier. -/
def Word.endInName (ws : List Word) : Bool := ws.getLast?.any fun w => w.kind = .ident

/-! ## Powers -/

namespace Power

theorem below_iff {b q : Power} : b.below q = true ↔ b.rank < q.rank := decide_eq_true_iff

/-- A word of this kind does not go on from an expression that is read at a power. -/
def bars (b : Power) (k : TokenKind) : Bool := (Dispatch.standard.power? k).all fun q => !b.below q

/-- An expression that is read at a power ends in front of a word of this kind. -/
def stopsAt (b : Power) (k : TokenKind) : Bool := k ≠ .lParen && k ≠ .lBracket && b.bars k

/-- An expression that is read at a power from some words ends in front of a word of this kind: only behind a name does
a bracket go on. -/
def stopsBehind (b : Power) (ws : List Word) (k : TokenKind) : Bool :=
  (!Word.endInName ws || (k ≠ .lParen && k ≠ .lBracket)) && b.bars k

theorem bars_mono {b c : Power} {k : TokenKind} (hbc : b.rank ≤ c.rank) (h : b.bars k = true) : c.bars k = true := by
  simp only [bars, Option.all_eq_true, Bool.not_eq_true', below, decide_eq_false_iff_not] at h ⊢
  intro q hq
  have hle := h q hq
  omega

variable {b c : Power} {ws : List Word} {k : TokenKind}

theorem stopsBehind_of_stopsAt (h : b.stopsAt k = true) : b.stopsBehind ws k = true := by
  rw [stopsAt, Bool.and_eq_true] at h
  rw [stopsBehind, h.1, h.2, Bool.or_true, Bool.and_true]

theorem bars_of_stopsBehind (h : b.stopsBehind ws k = true) : b.bars k = true := (Bool.and_eq_true_iff.1 h).2

theorem stopsBehind_mono (hbc : b.rank ≤ c.rank) (h : b.stopsBehind ws k = true) : c.stopsBehind ws k = true := by
  rw [stopsBehind, Bool.and_eq_true] at h ⊢
  exact ⟨h.1, bars_mono hbc h.2⟩

/-- Only the last words count. -/
theorem stopsBehind_append (vs : List Word) (hne : ws ≠ []) : b.stopsBehind (vs ++ ws) k = b.stopsBehind ws k := by
  rw [stopsBehind, stopsBehind, Word.endInName, Word.endInName, List.getLast?_append_of_ne_nil _ hne]

theorem stopsBehind_cons (w : Word) (hne : ws ≠ []) : b.stopsBehind (w :: ws) k = b.stopsBehind ws k :=
  stopsBehind_append [w] hne

/-- What is read at a power ends in front of an operator that does not bind tighter. -/
theorem stopsAt_continuation {form : InfixForm} {q : Power} (hk : Dispatch.standard.continuation k = some (form, q))
    (h : q.rank ≤ b.rank) : b.stopsAt k = true := by
  have hbars : b.bars k = true := by
    rw [bars, Dispatch.power?, hk]
    simpa [below] using h
  rw [stopsAt, hbars, Bool.and_true]
  cases k <;> first | rfl | cases hk

end Power

namespace Grammar

open Parse

/-! ## The loop over operators -/

/-- Some words lead to an expression: at any power of a lower rank, the reading goes on from this expression as a left
operand behind them, if what follows does not go on at the power of its last part. -/
def Leads (ws : List Word) (rank : Nat) (hold : Power) (e : Expr) : Prop :=
  ∀ n b p rest, b.rank < rank → p.words = ws ++ rest → p.words.length ≤ n + 1 → Begins (hold.stopsBehind ws) rest →
    ∃ e' q k, e'.bare = e.bare ∧ q.words = rest ∧ q.remaining ≤ k ∧
      expressionUpTo .standard (n + 1) b p = extendUpTo .standard (expressionUpTo .standard n) b k e' q

/-- Some words are read as an expression at a power. -/
def Spells (ws : List Word) (b : Power) (e : Expr) : Prop :=
  ∀ n, Takes n (expressionUpTo .standard n b) ws (b.stopsBehind ws) fun e' => e'.bare = e.bare

theorem extendUpTo_stop {expr : Power → Parse Expr} {b : Power} {k : Nat} {e : Expr} {q : Parser}
    (h : b.bars q.current.kind = true) : extendUpTo .standard expr b k e q = (.ok e, q) := by
  simp only [Power.bars, Option.all_eq_true, Bool.not_eq_true'] at h
  cases k with
  | zero => rfl
  | succ k =>
    rw [extendUpTo, Parse.kind_bind]
    rcases hc : Dispatch.standard.continuation q.current.kind with _ | ⟨form, c⟩
    · rfl
    · have hbelow := h c (by rw [Dispatch.power?, hc]; rfl)
      simp only [hbelow]
      rfl

theorem extendUpTo_continue {expr : Power → Parse Expr} {b c : Power} {k : Nat} {form : InfixForm} {e e' : Expr}
    {q q' : Parser} (hc : Dispatch.standard.continuation q.current.kind = some (form, c)) (hb : b.below c = true)
    (h : continueWith expr c e form q = (.ok e', q')) :
    extendUpTo .standard expr b (k + 1) e q = extendUpTo .standard expr b k e' q' := by
  rw [extendUpTo, Parse.kind_bind, hc]
  simp only [hb, if_true]
  exact bind_ok h

variable {ws vs : List Word} {rank : Nat} {hold : Power} {e : Expr}

theorem Leads.mono (h : Leads ws rank hold e) {rank' : Nat} (hle : rank' ≤ rank) : Leads ws rank' hold e :=
  fun n b p rest hb => h n b p rest (Nat.lt_of_lt_of_le hb hle)

theorem Leads.spells (h : Leads ws rank hold e) {b : Power} (hb : b.rank < rank) (hhold : b.rank ≤ hold.rank) :
    Spells ws b e := by
  intro n p rest hp hlength hrest
  cases n with
  | zero =>
    rw [Parser.length_words] at hlength
    omega
  | succ n =>
    obtain ⟨e', q, k, he, hq, -, heq⟩ :=
      h n b p rest hb hp hlength (hrest.mono fun k hk => Power.stopsBehind_mono hhold hk)
    refine ⟨e', q, ?_, hq, he⟩
    -- the loop has come to the expression, and what follows does not go on from it
    rw [heq, extendUpTo_stop]
    cases rest with
    | nil => exact hrest.elim
    | cons w rest =>
      rw [Parser.kind_current hq]
      exact Power.bars_of_stopsBehind hrest

/-- An operand leads to itself at any power. -/
theorem Leads.operand (form : OperandForm) (hform : Begins (fun k => Dispatch.standard.operand k = some form) ws)
    (h : ∀ n, Takes (n + 1) (operand (expressionUpTo .standard n) form) ws (Power.primary.stopsBehind ws)
      fun e' => e'.bare = e.bare) : Leads ws rank .primary e := by
  intro n b p rest _ hp hlength hrest
  obtain ⟨e', q, hm, hq, he⟩ := h n p rest hp hlength hrest
  refine ⟨e', q, q.remaining, he, hq, le_rfl, ?_⟩
  cases ws with
  | nil => exact hform.elim
  | cons w ws =>
    have hoperand : Dispatch.standard.operand p.current.kind = some form := by
      rw [Parser.kind_current hp]
      exact of_decide_eq_true hform
    rw [expressionUpTo, Parse.kind_bind, hoperand]
    exact bind_ok hm

/-- An operator and what follows it go on from a left operand. -/
theorem Leads.continue {lw : List Word} {lrank : Nat} {lhold c : Power} {left : Expr} {w : Word} {form : InfixForm}
    (hl : Leads lw lrank lhold left) (hw : Dispatch.standard.continuation w.kind = some (form, c))
    (hrank : c.rank ≤ lrank) (hhold : c.rank ≤ lhold.rank)
    (h : ∀ n left', left'.bare = left.bare →
      Takes (n + 1) (continueWith (expressionUpTo .standard n) c left' form) (w :: vs) (hold.stopsBehind (w :: vs))
        fun e' => e'.bare = e.bare) : Leads (lw ++ w :: vs) c.rank hold e := by
  intro n b p rest hb hp hlength hrest
  rw [List.append_assoc] at hp
  have hstop : lhold.stopsBehind lw w.kind = true :=
    Power.stopsBehind_of_stopsAt (Power.stopsAt_continuation hw hhold)
  obtain ⟨left', q, k, hleft, hq, hk, heq⟩ :=
    hl n b p (w :: vs ++ rest) (Nat.lt_of_lt_of_le hb hrank) hp hlength hstop
  have hle : q.words.length ≤ p.words.length := by
    rw [hp, hq]
    exact (List.suffix_append lw _).length_le
  have hrest' : Begins (hold.stopsBehind (w :: vs)) rest := by
    refine hrest.mono fun k hk => ?_
    rwa [Power.stopsBehind_append lw (List.cons_ne_nil w vs)] at hk
  obtain ⟨e', q', hcontinue, hq', he⟩ := h n left' hleft q rest hq (hle.trans hlength) hrest'
  -- the operator and what follows are still before the parser, so that the loop has a step left
  have hpos : 0 < q.remaining := by
    have hlengthRest := List.length_pos_of_ne_nil hrest.ne_nil
    have hlength' := q.length_words
    rw [hq, List.length_append, List.length_cons] at hlength'
    omega
  obtain ⟨k, rfl⟩ := Nat.exists_eq_succ_of_ne_zero (Nat.ne_of_gt (Nat.lt_of_lt_of_le hpos hk))
  refine ⟨e', q', k, he, hq', ?_, ?_⟩
  · have hlength' := q.length_words
    have hlength'' := q'.length_words
    rw [hq, List.length_append, List.length_cons] at hlength'
    rw [hq'] at hlength''
    omega
  · rw [heq]
    exact extendUpTo_continue (by rw [Parser.kind_current hq]; exact hw) (Power.below_iff.2 hb) hcontinue

/-! ## The forms of expressions -/

theorem Leads.literal {info : ExprInfo} {value : Literal} :
    Leads [value.word] rank .primary (.literal info value) := by
  refine Leads.operand .literal (by cases value <;> rfl) fun n => ?_
  unfold Grammar.operand
  refine Takes.advance_bind fun t ht => Takes.newExpr fun _ => ?_
  have hvalue : Literal.ofToken t = value := by
    obtain ⟨k, s, span⟩ := t
    cases value <;> obtain ⟨rfl, rfl⟩ := Word.mk.inj ht <;> rfl
  rw [Expr.bare, Expr.bare, hvalue]

theorem Leads.group (h : Spells ws .lowest e) : Leads (Word.parenthesised ws) rank .primary e := by
  refine Leads.operand .group (decide_eq_true rfl) fun n => ?_
  unfold Grammar.operand
  refine Takes.advance_bind fun _ _ => ?_
  refine Takes.bind (h n) (fun e' he' => ?_) fun rest _ => ?_
  · exact Takes.expect_bind rfl fun _ _ => Takes.pure he'
  · exact Power.stopsBehind_of_stopsAt (k := .rParen) rfl

theorem Leads.unary {info : ExprInfo} {op : Operator} (hop : op.IsSign) (hne : ws ≠ []) (h : Spells ws .unary e) :
    Leads (op.word :: ws) rank .primary (.unary info op e) := by
  refine Leads.operand .sign (decide_eq_true hop.operand) fun n => ?_
  unfold Grammar.operand
  refine Takes.advance_bind fun t ht => ?_
  refine Takes.bind_last ((h n).before fun k hk => ?_) fun e' he' => Takes.newExpr fun _ => ?_
  · rw [Power.stopsBehind_cons _ hne] at hk
    rw [Power.stopsBehind, Bool.and_eq_true] at hk ⊢
    refine ⟨hk.1, ?_⟩
    cases k <;> rfl
  · have hspelling : t.spelling = op.spelling := congrArg Word.spelling ht
    rw [Expr.bare, Expr.bare, he', Operator.bare, Operator.bare, Operator.ofToken, hspelling]

theorem Leads.binary {lw : List Word} {lrank : Nat} {lhold : Power} {info : ExprInfo} {op : Operator}
    {left right : Expr} (hop : op.IsInfix) (hl : Leads lw lrank lhold left) (hrank : op.power.rank ≤ lrank)
    (hhold : op.power.rank ≤ lhold.rank) (hne : ws ≠ []) (hr : Spells ws op.power right) :
    Leads (lw ++ op.word :: ws) op.power.rank op.power (.binary info op left right) := by
  refine hl.continue hop.continuation hrank hhold fun n left' hleft => ?_
  unfold continueWith
  refine Takes.advance_bind fun t ht => ?_
  refine Takes.bind_last ((hr n).before fun k hk => ?_) fun right' hright => ?_
  · rwa [Power.stopsBehind_cons _ hne] at hk
  · refine Takes.newExpr fun _ => ?_
    have hspelling : t.spelling = op.spelling := congrArg Word.spelling ht
    rw [Expr.bare, Expr.bare, hleft, hright, Operator.bare, Operator.bare, Operator.ofToken, hspelling]

theorem Leads.assign {lw : List Word} {lrank : Nat} {lhold : Power} {info : ExprInfo} {target value : Expr}
    (hl : Leads lw lrank lhold target) (hrank : Power.assignment.rank ≤ lrank)
    (hhold : Power.assignment.rank ≤ lhold.rank) (hne : ws ≠ []) (hv : Spells ws .lowest value) :
    Leads (lw ++ TokenKind.eq.word :: ws) Power.assignment.rank .lowest (.assign info target value) := by
  refine hl.continue (w := TokenKind.eq.word) rfl hrank hhold fun n target' htarget => ?_
  unfold continueWith
  refine Takes.advance_bind fun _ _ => ?_
  refine Takes.bind_last ((hv n).before fun k hk => ?_) fun value' hvalue => ?_
  · rwa [Power.stopsBehind_cons _ hne] at hk
  · refine Takes.newExpr fun _ => ?_
    rw [Expr.bare, Expr.bare, htarget, hvalue]

theorem Leads.var {info : ExprInfo} {ident : Ident} : Leads [ident.word] rank .primary (.var info ident) := by
  refine Leads.operand .name (decide_eq_true rfl) fun n => ?_
  unfold Grammar.operand nameForm
  refine Takes.silent_bind (fun p => ⟨_, _, rfl, rfl⟩) fun _ => ?_
  refine Takes.expectIdent_bind fun ident' hident => ?_
  refine Takes.kind_follow fun k hk => ?_
  split
  · cases hk
  · cases hk
  · refine Takes.silent_bind (fun p => ⟨_, _, rfl, rfl⟩) fun _ => Takes.newExpr fun _ => ?_
    rw [Expr.bare, Expr.bare, hident]

theorem Leads.arrayAccess {info : ExprInfo} {ident : Ident} {index : Expr} (h : Spells ws .lowest index) :
    Leads (ident.word :: TokenKind.lBracket.word :: (ws ++ [TokenKind.rBracket.word])) rank .primary
      (.arrayAccess info ident index) := by
  refine Leads.operand .name (decide_eq_true rfl) fun n => ?_
  unfold Grammar.operand nameForm
  refine Takes.silent_bind (fun p => ⟨_, _, rfl, rfl⟩) fun _ => ?_
  refine Takes.expectIdent_bind fun ident' hident => ?_
  refine Takes.kind_bind (T := (· = .lBracket)) (decide_eq_true rfl) fun k hk => ?_
  obtain rfl := of_decide_eq_true hk
  refine Takes.advance_bind fun _ _ => ?_
  refine Takes.bind ((h n).weaken (Nat.sub_le _ _) (fun _ hk => hk) fun _ he => he) (fun index' hindex => ?_)
    fun rest _ => Power.stopsBehind_of_stopsAt (k := .rBracket) rfl
  refine Takes.expect_bind rfl fun _ _ => ?_
  refine Takes.silent_bind (fun p => ⟨_, _, rfl, rfl⟩) fun _ => Takes.newExpr fun _ => ?_
  rw [Expr.bare, Expr.bare, hident, hindex]

theorem Leads.call {info : ExprInfo} {ident : Ident} {args : List Expr} {wss : List (List Word)}
    (hlength : args.length = wss.length)
    (hargs : ∀ a ∈ args.zip wss, Begins startsExpr a.2 ∧ Spells a.2 .lowest a.1) :
    Leads (ident.word :: Word.parenthesised (Word.separated wss)) rank .primary (.call info ident args) := by
  refine Leads.operand .name (decide_eq_true rfl) fun n => ?_
  unfold Grammar.operand nameForm
  refine Takes.silent_bind (fun p => ⟨_, _, rfl, rfl⟩) fun _ => ?_
  refine Takes.expectIdent_bind fun ident' hident => ?_
  refine Takes.kind_bind (T := (· = .lParen)) (decide_eq_true rfl) fun k hk => ?_
  obtain rfl := of_decide_eq_true hk
  have hwords : (args.zip wss).map Prod.snd = wss := List.map_snd_zip hlength.ge
  have hexprs : (args.zip wss).map (fun a => a.1.bare) = args.map Expr.bare := by
    conv_rhs => rw [← List.map_fst_zip hlength.le, List.map_map]
    rfl
  rw [← hwords]
  refine Takes.bind_last (Takes.parenthesised (g := fun a => a.1.bare) (f := Expr.bare) fun a ha => ?_)
    fun args' hargs' => ?_
  · obtain ⟨hbegins, hspells⟩ := hargs a ha
    refine ⟨hbegins.mono fun k hk => ?_, (hspells n).before fun k hk => ?_⟩
    · revert hk
      cases k <;> decide
    · refine Power.stopsBehind_of_stopsAt ?_
      revert hk
      cases k <;> decide
  · refine Takes.silent_bind (fun p => ⟨_, _, rfl, rfl⟩) fun _ => Takes.newExpr fun _ => ?_
    rw [Expr.bare, Expr.bare, Expr.bareAll_eq, Expr.bareAll_eq, hident, hargs', hexprs]

/-- Some words lead to an expression whose last part goes on no further than operators of the rank do, unless the rank
is so low that the expression may be an assignment, whose value takes all that follows. -/
def Climbs (ws : List Word) (least : Nat) (e : Expr) : Prop :=
  ∃ hold, Leads ws least hold e ∧ ∀ b : Power, b.rank ≤ least → Power.assignment.rank < least → b.rank ≤ hold.rank

theorem Leads.climbs (h : Leads ws rank .primary e) : Climbs ws rank e :=
  ⟨.primary, h, fun b _ _ => by cases b <;> decide⟩

theorem Climbs.spells {b : Power} (h : Climbs ws (b.rank + 1) e) : Spells ws b e := by
  obtain ⟨hold, hleads, hhold⟩ := h
  refine hleads.spells (Nat.lt_succ_self _) ?_
  by_cases hb : Power.assignment.rank < b.rank + 1
  · exact hhold b (Nat.le_succ _) hb
  · have hlowest : b.rank = 0 := Nat.lt_one_iff.1 (Nat.lt_of_succ_le (Nat.not_lt.1 hb))
    omega

end Grammar

open Grammar

/-! ## Every spelling is read -/

namespace Expr.Spelt

variable {least : Nat} {e : Expr} {ws : List Word}

theorem begins (h : e.Spelt least ws) : Begins startsExpr ws := by
  induction h with
  | binary _ _ _ _ ihLeft _ => exact ihLeft.append
  | assign _ _ _ ihTarget _ => exact ihTarget.append
  | unary hop _ _ =>
    obtain ⟨k, hk, hs⟩ := hop
    rw [Operator.word_eq hs]
    show startsExpr k = true
    cases k <;> cases hk <;> rfl
  | @literal _ _ value => cases value <;> rfl
  | group | var | arrayAccess | call => rfl

theorem ne_nil (h : e.Spelt least ws) : ws ≠ [] := h.begins.ne_nil

/-- A spelling for a rank is one for every lower rank. -/
theorem mono {least' : Nat} (h : e.Spelt least ws) (hle : least' ≤ least) : e.Spelt least' ws := by
  cases h with
  | group h => exact .group h
  | binary hop hrank hl hr => exact .binary hop (hle.trans hrank) hl hr
  | unary hop h => exact .unary hop h
  | assign hrank ht hv => exact .assign (hle.trans hrank) ht hv
  | var => exact .var
  | arrayAccess h => exact .arrayAccess h
  | call hlength h => exact .call hlength h
  | literal => exact .literal

/-- Every spelling leads to its expression. -/
theorem climbs (h : e.Spelt least ws) : Climbs ws least e := by
  induction h with
  | group _ ih => exact (Leads.group ih.spells).climbs
  | @binary least info op left right lw rw hop hrank _ hr ihLeft ihRight =>
    obtain ⟨hold, hleads, hhold⟩ := ihLeft
    have hop' : Power.assignment.rank < op.power.rank := Power.below_iff.1 hop.below.1
    have hright := ihRight.spells
    refine ⟨op.power, ?_, fun b hb _ => hb.trans hrank⟩
    exact (Leads.binary hop hleads le_rfl (hhold _ le_rfl hop') hr.ne_nil hright).mono hrank
  | unary hop h ih => exact (Leads.unary hop h.ne_nil ih.spells).climbs
  | @assign least info target value tw vw hrank _ hv ihTarget ihValue =>
    obtain ⟨hold, hleads, hhold⟩ := ihTarget
    have hholds : Power.assignment.rank ≤ hold.rank := hhold .assignment (Nat.le_succ _) (Nat.lt_succ_self _)
    refine ⟨.lowest, ?_, fun _ _ hlt => absurd hrank (Nat.not_le.2 hlt)⟩
    exact (Leads.assign hleads (Nat.le_succ _) hholds hv.ne_nil ihValue.spells).mono hrank
  | var => exact Leads.var.climbs
  | arrayAccess _ ih => exact (Leads.arrayAccess ih.spells).climbs
  | call hlength h ih => exact (Leads.call hlength fun a ha => ⟨(h a ha).begins, (ih a ha).spells⟩).climbs
  | literal => exact Leads.literal.climbs

/-- Every spelling is read as its expression. -/
theorem takes {b : Power} (h : e.Spelt (b.rank + 1) ws) (n : Nat) :
    Parse.Takes n (expression .standard b) ws (b.stopsBehind ws) fun e' => e'.bare = e.bare := by
  intro p rest hp _ hrest
  exact h.climbs.spells _ p rest hp p.length_words.le hrest

end Expr.Spelt

/-- At every power, every spelling of an expression is read as this expression, and the token behind it is the one that
comes next: any that does not go on at this power, and behind a name no bracket. -/
theorem expression_spelt {b : Power} {e : Expr} {p : Parser} {ts rest : List Token} {t : Token}
    (h : e.Spelt (b.rank + 1) (ts.map Token.word)) (hp : p.tokens = ts ++ t :: rest)
    (hpower : ∀ q ∈ Dispatch.standard.power? t.kind, b.below q = false)
    (hname : Word.endInName (ts.map Token.word) = true → t.kind ≠ .lParen ∧ t.kind ≠ .lBracket) :
    ∃ e' q, expression .standard b p = (.ok e', q) ∧ e'.bare = e.bare ∧ q.tokens = t :: rest := by
  have hwords : p.words = ts.map Token.word ++ (t :: rest).map Token.word := by
    rw [Parser.words, hp, List.map_append]
  have hstop : b.stopsBehind (ts.map Token.word) t.kind = true := by
    rw [Power.stopsBehind, Power.bars, Bool.and_eq_true, Option.all_eq_true]
    refine ⟨?_, fun q hq => by rw [hpower q hq]; rfl⟩
    cases hend : Word.endInName (ts.map Token.word) with
    | false => rfl
    | true => simpa using hname hend
  obtain ⟨e', q, hm, hq, he⟩ := h.takes _ p _ hwords le_rfl hstop
  refine ⟨e', q, hm, he, ?_⟩
  -- the parser has moved on to a token of its own, and as many are left as stand behind the spelling
  have hreports := reportsOnce_expression .standard b p
  rw [hm] at hreports
  cases hreports with
  | ok hscans _ =>
    obtain ⟨w, hw⟩ := hscans.tokens
    have hlength := congrArg List.length hq
    rw [Parser.words, List.length_map, List.length_map] at hlength
    rw [hp] at hw
    exact (List.append_inj_right' hw hlength.symm).symm

/-- A difference with a sign, a call and parentheses to spare, in front of a `<` that would bind looser. -/
theorem expression_spelt_difference : ∃ (e : Expr) (p : Parser) (ts rest : List Token) (t : Token),
    e.Spelt (Power.relational.rank + 1) (ts.map Token.word) ∧ p.tokens = ts ++ t :: rest ∧
      (∀ q ∈ Dispatch.standard.power? t.kind, Power.relational.below q = false) ∧
      (Word.endInName (ts.map Token.word) = true → t.kind ≠ .lParen ∧ t.kind ≠ .lBracket) ∧
      ∃ e' q, expression .standard .relational p = (.ok e', q) ∧ e'.bare = e.bare ∧ q.tokens = t :: rest := by
  let name (s : String) : Ident := .unbound s .dummy
  let one : Expr := .literal default (.int "1")
  let element : Expr := .arrayAccess default (name "a") one
  let value : Expr := .assign default (.var default (name "x")) (.assign default (.var default (name "y")) one)
  let call : Expr := .call default (name "f") [value, one]
  let product : Expr := .binary default ⟨"*", .dummy⟩ (.unary default ⟨"-", .dummy⟩ element) call
  let difference : Expr := .binary default ⟨"-", .dummy⟩ element product
  let e : Expr := .binary default ⟨"-", .dummy⟩ difference (.var default (name "z"))
  let p : Parser := .ofString "a[1] - -a[1] * f(x = y = 1, (1)) - z < 2"
  have hone {least : Nat} : one.Spelt least [⟨.intLiteral, "1"⟩] := .literal
  have helement {least : Nat} : element.Spelt least _ := .arrayAccess hone
  have hvalue : value.Spelt (Power.lowest.rank + 1) _ := .assign le_rfl .var (.assign le_rfl .var hone)
  have hcall {least : Nat} : call.Spelt least _ :=
    @Expr.Spelt.call _ _ _ _ [_, _] rfl (List.forall_mem_cons.2 ⟨hvalue, List.forall_mem_singleton.2 (.group hone)⟩)
  have hproduct : product.Spelt (Power.additive.rank + 1) _ :=
    .binary ⟨.mult, _, rfl, rfl⟩ (by decide) (.unary ⟨.minus, rfl, rfl⟩ helement) hcall
  obtain ⟨ws, hspelt, hws⟩ : ∃ ws, e.Spelt (Power.relational.rank + 1) ws ∧
      p.words = ws ++ [⟨.lt, "<"⟩, ⟨.intLiteral, "2"⟩, ⟨.eof, "$"⟩] :=
    ⟨_, .binary ⟨.minus, _, rfl, rfl⟩ (by decide) (.binary ⟨.minus, _, rfl, rfl⟩ (by decide) helement hproduct) .var,
      by decide +kernel⟩
  obtain ⟨ts, rest, hp, rfl, hrest⟩ := List.map_eq_append_iff.1 hws
  obtain ⟨t, rest, rfl, ht, -⟩ := List.map_eq_cons_iff.1 hrest
  have hkind : t.kind = .lt := congrArg Word.kind ht
  have hpower : ∀ q ∈ Dispatch.standard.power? t.kind, Power.relational.below q = false := by
    rw [hkind]
    decide
  have hname : Word.endInName (ts.map Token.word) = true → t.kind ≠ .lParen ∧ t.kind ≠ .lBracket := by
    rw [hkind]
    exact fun _ => ⟨nofun, nofun⟩
  exact ⟨e, p, ts, rest, t, hspelt, hp, hpower, hname, expression_spelt hspelt hp hpower hname⟩

end VCLang
