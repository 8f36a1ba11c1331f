/-
Parsing by the power of operators reads the layered rules of expressions.

The rules from `expr` to `unaryExpr` are numbered by the rank of the operators that they add, so that an
expression at a power is a word of the rule one above its rank. Behind an operand of a rule the layers
below it may go on, from the tightest to the loosest: this is the pattern `tail`, and what the loop over
the operators reads. An operator of rank `i` ends all tighter layers at once, and its right operand is
followed by the layers up to `i`.
-/
import VCLang.Grammar.Expression
import VCLang.Proofs.Grammar.Reads
namespace VCLang

open Dispatch

/-- The rank of the operator of a token that can stand between operands. -/
def infixRank? (k : TokenKind) : Option Nat := (standard.power? k).map Power.rank

/-- The rule whose words have no operator of a rank below `m` outside parentheses. -/
def level : Nat → Rule
  | 0 | 1 => .expr
  | 2 => .orExpr
  | 3 => .andExpr
  | 4 => .eqExpr
  | 5 => .relExpr
  | 6 => .addExpr
  | 7 => .mulExpr
  | _ + 8 => .unaryExpr

namespace Pattern

/-- An operator of a rank. -/
def operator : Nat → Pattern
  | 2 => .kind .orOr
  | 3 => .kind .andAnd
  | 4 => .oneOf .eqEq [.notEq]
  | 5 => .oneOf .lt [.ltEq, .gt, .gtEq]
  | 6 => .oneOf .plus [.minus]
  | 7 => .oneOf .mult [.div]
  | _ => .kind .eq

/-- The operators of a rank and their right operands that follow a first operand. -/
def more : Nat → Pattern
  | 1 => .opt (.seq (.kind .eq) (.rule .expr))
  | 2 => .many (.seq (operator 2) (.rule (level 3)))
  | 3 => .many (.seq (operator 3) (.rule (level 4)))
  | 4 => .many (.seq (operator 4) (.rule (level 5)))
  | 5 => .many (.seq (operator 5) (.rule (level 6)))
  | 6 => .many (.seq (operator 6) (.rule (level 7)))
  | 7 => .many (.seq (operator 7) (.rule (level 8)))
  | _ => .empty

/-- What follows an operand of the rule above `j` in a word of the rule `m`. -/
def tail (m : Nat) : Nat → Pattern
  | 0 => .empty
  | j + 1 => if j + 1 < m then .empty else .seq (more (j + 1)) (tail m j)

end Pattern

/-- The rank that the right operand of an operator of rank `i` is read at: an assignment groups to the
right. -/
def rightRank (i : Nat) : Nat := if i = 1 then 0 else i

/-- The tokens with which neither an operand nor an expression of the rule `m` goes on. -/
def endsLevel (m : Nat) (k : TokenKind) : Bool :=
  k ≠ .lParen && k ≠ .lBracket && (infixRank? k).all (· < m)

/-! ## Ranks -/

theorem infixRank?_bounds {k : TokenKind} {i : Nat} (h : infixRank? k = some i) : 1 ≤ i ∧ i ≤ 7 := by
  cases k <;> cases h <;> decide

theorem mem_operator {i : Nat} (hi : 1 ≤ i ∧ i ≤ 7) {w : List Token} :
    w ∈ (Pattern.operator i).lang ↔ ∃ t : Token, infixRank? t.kind = some i ∧ w = [t] := by
  have single (k : TokenKind) (ks : List TokenKind) (h : ∀ k', k' ∈ k :: ks ↔ infixRank? k' = some i) :
      w ∈ (Pattern.oneOf k ks).lang ↔ ∃ t : Token, infixRank? t.kind = some i ∧ w = [t] := by
    simp only [Pattern.mem_oneOf, h]
  rcases i with _ | _ | _ | _ | _ | _ | _ | _ | i
  · omega
  · exact single .eq [] fun k => by cases k <;> decide
  · exact single .orOr [] fun k => by cases k <;> decide
  · exact single .andAnd [] fun k => by cases k <;> decide
  · exact single .eqEq [.notEq] fun k => by cases k <;> decide
  · exact single .lt [.ltEq, .gt, .gtEq] fun k => by cases k <;> decide
  · exact single .plus [.minus] fun k => by cases k <;> decide
  · exact single .mult [.div] fun k => by cases k <;> decide
  · omega

/-- A rule adds the operators of its rank to the next rule. -/
theorem lang_level {m : Nat} (hm : 1 ≤ m) :
    (Pattern.rule (level m)).lang = (Pattern.rule (level (m + 1))).lang * (Pattern.more m).lang := by
  have chain (r : Rule) (operator item : Pattern) (hr : r.body = .list operator item) :
      (Pattern.rule r).lang = item.lang * (Pattern.many (.seq operator item)).lang := by
    rw [Pattern.lang_rule, hr, Pattern.lang_list]
  match m, hm with
  | 1, _ =>
    rw [level, Pattern.lang_rule, Rule.body, Pattern.lang_alt, Pattern.lang_seq, Pattern.more,
      Pattern.lang_opt, mul_add, mul_one, add_comm, level]
  | 2, _ => exact chain .orExpr _ _ rfl
  | 3, _ => exact chain .andExpr _ _ rfl
  | 4, _ => exact chain .eqExpr _ _ rfl
  | 5, _ => exact chain .relExpr _ _ rfl
  | 6, _ => exact chain .addExpr _ _ rfl
  | 7, _ => exact chain .mulExpr _ _ rfl
  | m + 8, _ => exact (mul_one _).symm.trans (congrArg _ Pattern.lang_empty.symm)

/-- The words of a rule are the operands of a tighter one with what follows them. -/
theorem lang_level_tail {m : Nat} (hm : 1 ≤ m) :
    ∀ {j : Nat}, m ≤ j + 1 →
      (Pattern.rule (level m)).lang = (Pattern.rule (level (j + 1))).lang * (Pattern.tail m j).lang
  | 0, hj => by
    obtain rfl : m = 1 := by omega
    rw [Pattern.tail, Pattern.lang_empty, mul_one]
  | j + 1, hj => by
    rw [Pattern.tail]
    split_ifs with h
    · obtain rfl : m = j + 1 + 1 := by omega
      rw [Pattern.lang_empty, mul_one]
    · rw [lang_level_tail hm (by omega : m ≤ j + 1), lang_level (by omega : 1 ≤ j + 1), Pattern.lang_seq,
        mul_assoc]

theorem nullable_more (i : Nat) : (Pattern.more i).nullable = true := by
  unfold Pattern.more
  split <;> rfl

/-- The layer of a rank begins with its operators. -/
theorem first_more {i : Nat} {k : TokenKind} (h : (Pattern.more i).first k = true) :
    infixRank? k = some i := by
  unfold Pattern.more at h
  split at h <;> cases k <;> first | rfl | cases h

theorem nullable_tail (m : Nat) : ∀ j, (Pattern.tail m j).nullable = true
  | 0 => rfl
  | j + 1 => by
    rw [Pattern.tail]
    split_ifs
    · rfl
    · rw [Pattern.nullable, nullable_more, nullable_tail m j]
      rfl

/-- What follows an operand begins with an operator of one of the layers. -/
theorem first_tail {m : Nat} {k : TokenKind} :
    ∀ {j : Nat}, (Pattern.tail m j).first k = true → ∃ i, infixRank? k = some i ∧ m ≤ i ∧ i ≤ j
  | 0, h => nomatch h
  | j + 1, h => by
    rw [Pattern.tail] at h
    split_ifs at h with hj
    · cases h
    · rw [Pattern.first, Bool.or_eq_true, Bool.and_eq_true] at h
      rcases h with h | ⟨-, h⟩
      · exact ⟨j + 1, first_more h, by omega, le_rfl⟩
      · obtain ⟨i, hi, hm, hij⟩ := first_tail h
        exact ⟨i, hi, hm, by omega⟩

/-- What follows an operand may begin with an operator of rank `i`: then it is that operator, its right
operand, and what follows an operand of its rank. -/
theorem lang_more_tail {m i : Nat} (hm : 1 ≤ m) (hmi : m ≤ i) (hi : i ≤ 7) :
    (Pattern.tail m i).lang = (Pattern.tail m (i - 1)).lang +
      (Pattern.seq (.operator i) (.seq (.rule (level (rightRank i + 1))) (.tail m (rightRank i)))).lang := by
  obtain ⟨j, rfl⟩ : ∃ j, i = j + 1 := ⟨i - 1, by omega⟩
  have htail : (Pattern.tail m (j + 1)).lang = (Pattern.more (j + 1)).lang * (Pattern.tail m j).lang := by
    rw [Pattern.tail, if_neg (by omega), Pattern.lang_seq]
  have repeated (o e : Pattern) (hmore : Pattern.more (j + 1) = .many (.seq o e))
      (hr : rightRank (j + 1) = j + 1) : (Pattern.tail m (j + 1)).lang = (Pattern.tail m j).lang +
        (Pattern.seq o (.seq e (.tail m (rightRank (j + 1))))).lang := by
    rw [hr, Pattern.lang_seq, Pattern.lang_seq, htail, hmore]
    conv_lhs => rw [Pattern.lang_many]
    rw [add_mul, one_mul, Pattern.lang_seq, mul_assoc, mul_assoc]
  rcases j with _ | _ | _ | _ | _ | _ | _ | j
  · obtain rfl : m = 1 := by omega
    rw [htail, Pattern.more, Pattern.lang_opt, add_mul, one_mul, add_comm, Pattern.lang_seq,
      Pattern.lang_seq, Pattern.lang_seq, mul_assoc]
    rfl
  · exact repeated _ _ rfl rfl
  · exact repeated _ _ rfl rfl
  · exact repeated _ _ rfl rfl
  · exact repeated _ _ rfl rfl
  · exact repeated _ _ rfl rfl
  · exact repeated _ _ rfl rfl
  · omega

theorem tail_le {m i : Nat} : ∀ {j : Nat}, i ≤ j → ∀ w ∈ (Pattern.tail m i).lang, w ∈ (Pattern.tail m j).lang
  | 0, hj, w, hw => by rwa [← Nat.le_zero.1 hj]
  | j + 1, hj, w, hw => by
    rcases Nat.lt_or_eq_of_le hj with h | rfl
    · have hwj := tail_le (Nat.lt_succ_iff.1 h) w hw
      rw [Pattern.tail]
      split_ifs with hm
      · rcases j with _ | j
        · exact hwj
        · rwa [Pattern.tail, if_pos (by omega)] at hwj
      · exact .seq (Pattern.nil_mem (nullable_more _)) hwj
    · exact hw

/-- An operator of rank `i` ends the tighter layers. -/
theorem head_tail {m i : Nat} {K : Language Token} {t : Token} {ts : List Token}
    (ht : infixRank? t.kind = some i) :
    ∀ {j : Nat}, i ≤ j → t :: ts ∈ (Pattern.tail m j).lang * K → t :: ts ∈ (Pattern.tail m i).lang * K
  | 0, hj, h => by rwa [Nat.le_zero.1 hj]
  | j + 1, hj, h => by
    rcases Nat.lt_or_eq_of_le hj with hlt | rfl
    · refine head_tail ht (Nat.lt_succ_iff.1 hlt) ?_
      rw [Pattern.tail] at h
      split_ifs at h with hm
      · have hnil := Pattern.nil_mem (nullable_tail m j)
        rw [Pattern.lang_empty, one_mul] at h
        exact Language.append_mem_mul hnil h
      · rw [Pattern.lang_seq, mul_assoc] at h
        rcases Pattern.first_of_mem_mul h with h | ⟨-, h⟩
        · rw [first_more h] at ht
          cases ht
          omega
        · exact h
    · exact h

/-! ## Operands -/

/-- The tokens with which an operand does not go on. -/
def endsOperand (k : TokenKind) : Bool := k ≠ .lParen && k ≠ .lBracket

/-- A reader of expressions inside expressions: at a power, it reads the rule above it and stops at no
operator that binds tighter. -/
structure ReadsPowers (n : Nat) (expr : Power → Parse Expr) : Prop where
  reads : ∀ (power : Power) (p : Parser), p.Ready n →
    Reads (Follow (endsLevel (power.rank + 1))) (.rule (level (power.rank + 1))) p (expr power p)
  stops : ∀ (power : Power) (p q : Parser) (e : Expr), p.Ready n → expr power p = (.ok e, q) →
    ∀ i, infixRank? q.current.kind = some i → i ≤ power.rank

section Operand

variable {n : Nat} {expr : Power → Parse Expr} {p : Parser}

theorem ReadsPowers.lowest (h : ReadsPowers n expr) (hp : p.Ready n) :
    Reads (Follow (endsLevel 1)) (.rule .expr) p (expr .lowest p) := h.reads .lowest p hp

/-- A variable, an element of an array or a call, where what follows opens neither. -/
theorem Reads.nameForm (h : ReadsPowers n expr) (hp : p.Ready (n + 1)) :
    Reads (Follow endsOperand)
      (.seq (.kind .ident)
        (.opt (.alt (.rule .argList) (.seq (.kind .lBracket) (.seq (.rule .expr) (.kind .rBracket))))))
      p (Grammar.nameForm expr p) := by
  refine silentThen (fun r => ⟨_, _, rfl, rfl⟩) fun start q hq => ?_
  have hpq := hp.of_tokens hq
  refine (expectIdent (F := fun _ => True) hpq).andNext hpq rfl (fun ident r hr => ?_) fun _ _ => trivial
  rw [Parse.kind_bind]
  by_cases hparen : r.current.kind = .lParen
  · rw [hparen]
    refine opt (alt_left ?_ fun K ts _ => Pattern.not_mem_mul (by rw [hparen]; rfl) rfl)
      fun K ts hK => hK.not_mem (by rw [hparen]; rfl)
    refine rule (andSilent (parenthesised (fun p hp => h.lowest hp) rfl rfl ⟨rfl, rfl⟩ hr) fun args s => ?_)
    exact ⟨_, _, rfl, rfl⟩
  by_cases hbracket : r.current.kind = .lBracket
  · rw [hbracket]
    refine opt (alt_right ?_ fun K ts _ => Pattern.not_mem_mul (by rw [hbracket]; rfl) rfl)
      fun K ts hK => hK.not_mem (by rw [hbracket]; rfl)
    refine (advance (F := fun _ => True) hr hbracket (by decide)).andThen hr (fun _ s hs => ?_) fun _ _ => trivial
    refine (h.lowest hs).andThen hs (fun index u hu => ?_) fun K _ => Follow.nonempty (fun k hk => ?_) rfl
    · exact (expect hu (by decide)).andSilent fun _ v => ⟨_, _, rfl, rfl⟩
    · rw [of_decide_eq_true hk]
      rfl
  · refine nothing (fun s => ?_) (Bool.or_true _) ?_
    · cases hk : r.current.kind <;> first
        | contradiction
        | exact ⟨_, _, rfl, rfl⟩
    · simp [Pattern.opt, Pattern.first, Pattern.nullable, Rule.first, hparen, hbracket]

/-- What begins like a primary expression has no sign. -/
theorem Reads.unary {F : Language Token → Prop} {r : Except Error α × Parser}
    (h : Reads F (.rule .primary) p r) (hk : startsPrimary p.current.kind = true) :
    Reads F (.rule .unaryExpr) p r := by
  refine rule (h.alt_right fun K ts _ => Pattern.not_mem_mul ?_ rfl)
  cases hp : p.current.kind <;> rw [hp] at hk <;> first
    | rfl
    | cases hk

theorem Reads.operand (h : ReadsPowers n expr) {form : OperandForm}
    (hform : standard.operand p.current.kind = some form) (hp : p.Ready (n + 1)) :
    Reads (Follow endsOperand) (.rule .unaryExpr) p (Grammar.operand expr form p) := by
  cases form with
  | sign =>
    have hk : p.current.kind ∈ [.plus, .minus, .not] := by
      cases hk : p.current.kind <;> rw [hk] at hform <;> cases hform <;> decide
    refine rule (alt_left ?_ fun K ts _ => Pattern.not_mem_mul ?_ rfl)
    · refine (advanceOneOf (F := fun _ => True) hp hk (by decide)).andNext hp rfl (fun t q hq => ?_)
        fun _ _ => trivial
      refine andSilent ((h.reads .unary q hq).weaken fun K hK => hK.mono fun k hk => ?_)
        fun e r => ⟨_, _, rfl, rfl⟩
      -- the operand of a sign binds tighter than every operator, so that each of them ends it
      simp only [endsOperand, endsLevel, Bool.and_eq_true] at hk ⊢
      refine ⟨hk, ?_⟩
      rcases hr : infixRank? k with _ | i
      · rfl
      · have hi := (infixRank?_bounds hr).2
        exact decide_eq_true (by simp only [Power.rank]; omega)
    · exact (by decide : ∀ k ∈ [TokenKind.plus, .minus, .not], startsPrimary k = false) _ hk
  | literal =>
    have hk : p.current.kind ∈ [.intLiteral, .floatLiteral, .booleanLiteral, .stringLiteral] := by
      cases hk : p.current.kind <;> rw [hk] at hform <;> cases hform <;> decide
    have hne : p.current.kind ≠ .ident ∧ p.current.kind ≠ .lParen ∧ startsPrimary p.current.kind = true :=
      (by decide : ∀ k ∈ [TokenKind.intLiteral, .floatLiteral, .booleanLiteral, .stringLiteral],
        k ≠ .ident ∧ k ≠ .lParen ∧ startsPrimary k = true) _ hk
    refine (rule (alt_right (alt_right ?_ ?_) ?_)).unary hne.2.2
    · exact (advanceOneOf hp hk (by decide)).andSilent fun t q => ⟨_, _, rfl, rfl⟩
    · exact fun K ts _ => Pattern.not_mem_mul (by simp [Pattern.first, Pattern.nullable, hne.2.1]) rfl
    · exact fun K ts _ => Pattern.not_mem_mul (by simp [Pattern.first, Pattern.nullable, hne.1]) rfl
  | name =>
    have hk : p.current.kind = .ident := by
      cases hk : p.current.kind <;> rw [hk] at hform <;> cases hform
    refine (rule (alt_left (nameForm h hp) fun K ts _ => ?_)).unary (by rw [hk]; rfl)
    exact Pattern.not_mem_mul (by rw [hk]; rfl) rfl
  | group =>
    have hk : p.current.kind = .lParen := by
      cases hk : p.current.kind <;> rw [hk] at hform <;> cases hform
    refine (rule (alt_right (alt_left ?_ ?_) ?_)).unary (by rw [hk]; rfl)
    · refine (advance (F := fun _ => True) hp hk (by decide)).andNext hp rfl (fun _ q hq => ?_)
        fun _ _ => trivial
      refine (h.lowest hq).andThen hq (fun e r hr => ?_) fun K _ => Follow.nonempty (fun k hk => ?_) rfl
      · exact (expect hr (by decide)).andSilent fun _ s => ⟨_, _, rfl, rfl⟩
      · rw [of_decide_eq_true hk]
        rfl
    · exact fun K ts _ => Pattern.not_mem_mul (by rw [hk]; rfl) rfl
    · exact fun K ts _ => Pattern.not_mem_mul (by rw [hk]; rfl) rfl

/-! ## Operators -/

theorem rank_below {P Q : Power} : P.below Q = true ↔ P.rank + 1 ≤ Q.rank := decide_eq_true_iff

/-- Nothing follows an operand where the current token is no operator of the layers asked for. -/
theorem Reads.noTail {F : Language Token → Prop} {m j : Nat} {left : Expr}
    (hno : ∀ i, infixRank? p.current.kind = some i → i < m) :
    Reads F (.tail m j) p ((pure left : Parse Expr) p) := by
  refine nothing (fun q => ⟨_, _, rfl, rfl⟩) (nullable_tail m j) ?_
  by_contra h
  rw [Bool.not_eq_false] at h
  obtain ⟨i, hi, hm, -⟩ := first_tail h
  have := hno i hi
  omega

/-- The form of the operator of a token and the power of its right operand. -/
theorem continuation_cases {k : TokenKind} {form : InfixForm} {power : Power}
    (hk : standard.continuation k = some (form, power)) :
    infixRank? k = some power.rank ∧
      (form = .binary ∧ rightRank power.rank = power.rank ∨
        form = .assignment ∧ rightRank power.rank = Power.lowest.rank) := by
  cases k <;> cases hk <;> decide

/-- What an operator makes of its left operand reads the operator and its right operand. -/
theorem Reads.continueWith (h : ReadsPowers n expr) {form : InfixForm} {power : Power} {left : Expr}
    (hk : standard.continuation p.current.kind = some (form, power)) (hp : p.Ready (n + 1)) :
    Reads (Follow (endsLevel (rightRank power.rank + 1)))
      (.seq (.operator power.rank) (.rule (level (rightRank power.rank + 1)))) p
      (Grammar.continueWith expr power left form p) := by
  obtain ⟨hrank, hform⟩ := continuation_cases hk
  have hop : Reads (fun _ => True) (.operator power.rank) p (Parse.advance p) :=
    advanceSingle (S := fun t => infixRank? t.kind = some power.rank)
      (fun _ => mem_operator (infixRank?_bounds hrank)) hp hrank fun h => by rw [h] at hk; cases hk
  have hnull : (Pattern.operator power.rank).nullable = false := by cases power <;> rfl
  rcases hform with ⟨rfl, hr⟩ | ⟨rfl, hr⟩
  · rw [hr]
    refine hop.andNext hp hnull (fun t q hq => ?_) fun _ _ => trivial
    exact (h.reads power q hq).andSilent fun e r => ⟨_, _, rfl, rfl⟩
  · rw [hr]
    refine hop.andNext hp hnull (fun t q hq => ?_) fun _ _ => trivial
    exact (h.reads .lowest q hq).andSilent fun e r => ⟨_, _, rfl, rfl⟩

/-- Behind the right operand of an operator stands no operator that binds tighter. -/
theorem continueWith_stops (h : ReadsPowers n expr) {form : InfixForm} {power : Power} {left e : Expr}
    {q : Parser} (hk : standard.continuation p.current.kind = some (form, power)) (hp : p.Ready (n + 1))
    (hq : Grammar.continueWith expr power left form p = (.ok e, q)) :
    ∀ i, infixRank? q.current.kind = some i → i ≤ rightRank power.rank := by
  obtain ⟨hrank, hform⟩ := continuation_cases hk
  have hne : p.current.kind ≠ .eof := fun heof => by rw [heof] at hk; cases hk
  have hadvance : p.advance.Ready n := hp.next (hp.tokens_advance hne) (List.cons_ne_nil _ _)
  rcases hform with ⟨rfl, hr⟩ | ⟨rfl, hr⟩
  · obtain ⟨right, r, hright, hnew⟩ := Parse.of_bind_ok (show (expr power >>= _) p.advance = _ from hq)
    cases hnew
    rw [hr]
    exact h.stops power p.advance r right hadvance hright
  · obtain ⟨value, r, hvalue, hnew⟩ := Parse.of_bind_ok (show (expr .lowest >>= _) p.advance = _ from hq)
    cases hnew
    rw [hr]
    exact h.stops .lowest p.advance r value hadvance hvalue

theorem nullable_turn (i m : Nat) : (Pattern.seq (.operator i) (.rule (level m))).nullable = false :=
  Bool.and_false _

/-- One turn of the loop: an operator of one of the layers, its right operand, and what follows that. -/
theorem Reads.turn {m i j : Nat} {r : Except Error α × Parser} (hm : 1 ≤ m) (hmi : m ≤ i) (hij : i ≤ j)
    (hi : infixRank? p.current.kind = some i)
    (h : Reads (Follow (endsLevel m)) (.seq (.seq (.operator i) (.rule (level (rightRank i + 1))))
      (.tail m (rightRank i))) p r) : Reads (Follow (endsLevel m)) (.tail m j) p r := by
  have hlang := lang_more_tail hm hmi (infixRank?_bounds hi).2
  rw [Pattern.lang_seq, Pattern.lang_seq, ← mul_assoc] at hlang
  refine h.narrow (fun w hw => tail_le hij w ?_) (fun _ hK => hK) fun K ts hK hv => ?_
  · rw [Pattern.lang_seq, Pattern.lang_seq] at hw
    rw [hlang, Language.mem_add]
    exact .inr hw
  · have hvi := head_tail hi hij hv
    rw [hlang, add_mul, Language.mem_add] at hvi
    rw [Pattern.lang_seq, Pattern.lang_seq]
    refine hvi.resolve_left fun hprev => ?_
    -- the looser layers begin with other operators, and what follows begins with none of them
    rcases Pattern.first_of_mem_mul hprev with hf | ⟨-, hKv⟩
    · obtain ⟨i', hi', -, hlt⟩ := first_tail hf
      rw [hi] at hi'
      cases hi'
      have := (infixRank?_bounds hi).1
      omega
    · have hends := hK _ _ hKv
      simp only [endsLevel, hi, Option.all_some, Bool.and_eq_true, decide_eq_true_eq] at hends
      omega

theorem endsLevel_mono {m m' : Nat} {k : TokenKind} (hm : m ≤ m') (h : endsLevel m k = true) :
    endsLevel m' k = true := by
  simp only [endsLevel, Bool.and_eq_true] at h ⊢
  refine ⟨h.1, ?_⟩
  cases hk : infixRank? k with
  | none => rfl
  | some i =>
    rw [hk] at h
    exact decide_eq_true (Nat.lt_of_lt_of_le (of_decide_eq_true h.2) hm)

/-- Behind a right operand may follow an operator of its rank at most, or what follows the whole. -/
theorem follow_tail {m j : Nat} {K : Language Token} (hm : m ≤ j + 1) (hK : Follow (endsLevel m) K) :
    Follow (endsLevel (j + 1)) ((Pattern.tail m j).lang * K) := by
  refine Follow.mul (fun k hk => ?_) fun _ => hK.mono fun k hk => endsLevel_mono hm hk
  obtain ⟨i, hi, -, hij⟩ := first_tail hk
  have hparen : k ≠ .lParen ∧ k ≠ .lBracket := by
    constructor <;> rintro rfl <;> cases hi
  simp only [endsLevel, hi, Option.all_some, Bool.and_eq_true, decide_eq_true_eq]
  exact ⟨hparen, by omega⟩

/-- The loop over the operators reads what follows an operand, from the layers up to `j`, if the current
token is no tighter operator. -/
theorem Reads.extendUpTo (h : ReadsPowers n expr) (power : Power) :
    ∀ (fuel : Nat) {j : Nat} {left : Expr} {p : Parser}, p.Ready (n + 1) → p.remaining ≤ fuel →
      (∀ i, infixRank? p.current.kind = some i → i ≤ j) →
      Reads (Follow (endsLevel (power.rank + 1))) (.tail (power.rank + 1) j) p
        (Grammar.extendUpTo standard expr power fuel left p)
  | 0, j, left, p, hp, hfuel, _ => by
    -- the fuel counts the tokens, so that only the end mark is left
    refine noTail fun i hi => ?_
    have heof := hp.eof_iff.2 (List.length_eq_zero_iff.1 (Nat.le_zero.1 hfuel))
    rw [heof] at hi
    cases hi
  | fuel + 1, j, left, p, hp, hfuel, hj => by
    rw [Grammar.extendUpTo, Parse.kind_bind]
    rcases hk : standard.continuation p.current.kind with _ | ⟨form, q⟩
    · refine noTail fun i hi => ?_
      rw [infixRank?, power?, hk] at hi
      cases hi
    · have hi := (continuation_cases hk).1
      change Reads _ _ p ((if power.below q = true then
        Grammar.continueWith expr q left form >>= Grammar.extendUpTo standard expr power fuel
        else pure left) p)
      split_ifs with hbelow
      · refine turn (Nat.le_add_left 1 _) (rank_below.1 hbelow) (hj _ hi) hi ?_
        have hm : power.rank + 1 ≤ rightRank q.rank + 1 := by
          have := rank_below.1 hbelow
          unfold rightRank
          split_ifs <;> omega
        refine (continueWith h hk hp).bind (fun e r w hr hw ht => ?_) fun K hK => follow_tail hm hK
        -- the operator takes a token, and one unit of fuel
        have hfew := (hp.self.next ht (Pattern.ne_nil (nullable_turn _ _) hw)).few
        exact extendUpTo h power fuel (hp.after ht) (by omega) (continueWith_stops h hk hp hr)
      · refine noTail fun i hi' => ?_
        rw [hi] at hi'
        cases hi'
        have := mt rank_below.2 hbelow
        omega

/-- The loop over the operators stops at no operator that binds tighter than its power. -/
theorem extendUpTo_stops (h : ReadsPowers n expr) (power : Power) :
    ∀ (fuel : Nat) {left e : Expr} {p q : Parser}, p.Ready (n + 1) → p.remaining ≤ fuel →
      Grammar.extendUpTo standard expr power fuel left p = (.ok e, q) →
      ∀ i, infixRank? q.current.kind = some i → i ≤ power.rank
  | 0, left, e, p, q, hp, hfuel, hq => by
    cases hq
    have heof := hp.eof_iff.2 (List.length_eq_zero_iff.1 (Nat.le_zero.1 hfuel))
    rw [heof]
    rintro i ⟨⟩
  | fuel + 1, left, e, p, q, hp, hfuel, hq => by
    rw [Grammar.extendUpTo, Parse.kind_bind] at hq
    rcases hk : standard.continuation p.current.kind with _ | ⟨form, power'⟩
    · rw [hk] at hq
      cases hq
      intro i hi
      rw [infixRank?, power?, hk] at hi
      cases hi
    · rw [hk] at hq
      change ((if power.below power' = true then
        Grammar.continueWith expr power' left form >>= Grammar.extendUpTo standard expr power fuel
        else pure left : Parse Expr) p) = _ at hq
      split_ifs at hq with hbelow
      · obtain ⟨e', r, hr, hq⟩ := Parse.of_bind_ok hq
        have hreads := @Reads.continueWith n expr p h form power' left hk hp
        rw [hr] at hreads
        cases hreads with
        | @ok _ _ w ht hw _ =>
          have hfew := (hp.self.next ht (Pattern.ne_nil (nullable_turn _ _) hw)).few
          exact extendUpTo_stops h power fuel (hp.after ht) (by omega) hq
      · cases hq
        intro i hi
        rw [(continuation_cases hk).1] at hi
        cases hi
        have := mt rank_below.2 hbelow
        omega

end Operand

/-! ## Whole expressions -/

theorem rank_le (power : Power) : power.rank ≤ 9 := by cases power <;> decide

/-- Expressions with fewer than `n` tokens behind them are read with `n` expressions inside each other. -/
theorem readsPowers_expressionUpTo : ∀ n, ReadsPowers n (Grammar.expressionUpTo standard n)
  | 0 => ⟨fun _ _ hp => absurd hp.few (Nat.not_lt_zero _), fun _ _ _ _ hp => absurd hp.few (Nat.not_lt_zero _)⟩
  | n + 1 => by
    have ih := readsPowers_expressionUpTo n
    constructor
    · intro power p hp
      rw [Grammar.expressionUpTo, Parse.kind_bind]
      rcases hk : standard.operand p.current.kind with _ | form
      · -- what begins no operand begins no expression of any power
        refine Reads.fail fun K ts _ => Pattern.not_mem_mul ?_ rfl
        have hlevel : (level (power.rank + 1)).first = startsExpr := by cases power <;> rfl
        change (level (power.rank + 1)).first p.current.kind = false
        rw [hlevel]
        cases hp : p.current.kind <;> rw [hp] at hk <;> first
          | rfl
          | cases hk
      · -- an expression is an operand with what follows it, where even the tightest operator may
        refine Reads.congr (a := .seq (.rule .unaryExpr) (.tail (power.rank + 1) 9)) ?_ ?_
        · refine (Reads.operand ih hk hp).andThen hp (fun left q hq => ?_) fun K hK => ?_
          · exact Reads.extendUpTo ih power q.remaining hq le_rfl fun i hi => by
              have := (infixRank?_bounds hi).2
              omega
          · have := rank_le power
            refine (follow_tail (j := 9) (by omega) hK).mono fun k hk => ?_
            rw [endsLevel, Bool.and_eq_true] at hk
            exact hk.1
        · have hle : power.rank + 1 ≤ 9 + 1 := Nat.succ_le_succ (rank_le power)
          rw [Pattern.lang_seq, lang_level_tail (Nat.le_add_left 1 _) hle]
          rfl
    · intro power p q e hp h
      rw [Grammar.expressionUpTo, Parse.kind_bind] at h
      rcases hk : standard.operand p.current.kind with _ | form
      · rw [hk] at h
        cases h
      · rw [hk] at h
        obtain ⟨left, r, hleft, h⟩ := Parse.of_bind_ok h
        have hreads := Reads.operand ih hk hp
        rw [hleft] at hreads
        cases hreads with
        | ok ht _ _ => exact extendUpTo_stops ih power r.remaining (hp.after ht) le_rfl h

/-- An expression at the lowest power reads the rule of expressions. -/
theorem Reads.expression {n : Nat} {p : Parser} (hp : p.Ready n) :
    Reads (Follow (endsLevel 1)) (.rule .expr) p (Grammar.expression standard .lowest p) :=
  (readsPowers_expressionUpTo (p.remaining + 1)).lowest hp.self

end VCLang
