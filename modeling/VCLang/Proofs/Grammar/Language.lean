/-
The grammar of the language as data, and the words of its patterns. A rule stands for a pattern over token
kinds and rules; the one thing that a grammar over kinds cannot say, the bound on the size of an array, is
a pattern of its own. The patterns have the words of regular operations on languages.

Two tables are computed from the grammar: which rules have a word at all (every one), and which kinds of
token the words of a pattern begin with.
-/
import Mathlib.Computability.Language
import VCLang.Text.Decimal
import VCLang.Token.Basic
namespace VCLang

/-- The rules of the grammar. -/
inductive Rule where
  | program | funcRest | varRest | initDeclaratorList | initDeclarator | declaratorSuffix | initialiser | type
  | paraList | paraDecl
  | compoundStmt | stmt | ifStmt | forStmt | whileStmt
  | expr | orExpr | andExpr | eqExpr | relExpr | addExpr | mulExpr | unaryExpr | primary | argList
  deriving DecidableEq

/-- What stands on the right of a rule. -/
inductive Pattern where
  | kind (k : TokenKind)
  /-- An integer literal that fits the size of an array. -/
  | size
  | rule (r : Rule)
  | empty
  | seq (a b : Pattern)
  | alt (a b : Pattern)
  | many (a : Pattern)
  deriving DecidableEq

namespace Pattern

def opt (a : Pattern) : Pattern := .alt a .empty

/-- A token of one of some kinds. -/
def oneOf (k : TokenKind) : List TokenKind → Pattern
  | [] => .kind k
  | k' :: ks => .alt (.kind k) (oneOf k' ks)

/-- One of some patterns. -/
def alts (a : Pattern) : List Pattern → Pattern
  | [] => a
  | b :: bs => .alt a (alts b bs)

/-- One or more items with a separator between them. -/
def list (separator item : Pattern) : Pattern := .seq item (.many (.seq separator item))

/-- An item, or one or more of them with commas between them, in parentheses. -/
def parenthesised (item : Pattern) : Pattern :=
  .seq (.kind .lParen) (.seq (.opt (.list (.kind .comma) item)) (.kind .rParen))

/-- An initial value behind its sign, or none. -/
def initialised : Pattern := .opt (.seq (.kind .eq) (.rule .initialiser))

end Pattern

/-- The right side of a rule. -/
def Rule.body : Rule → Pattern
  | .program =>
    .seq (.many (.seq (.rule .type) (.seq (.kind .ident) (.alt (.rule .funcRest) (.rule .varRest)))))
      (.kind .eof)
  | .funcRest => .seq (.rule .paraList) (.rule .compoundStmt)
  | .varRest =>
    .seq (.opt (.rule .declaratorSuffix)) (.seq .initialised
      (.seq (.many (.seq (.kind .comma) (.rule .initDeclarator))) (.kind .semicolon)))
  | .initDeclaratorList => .list (.kind .comma) (.rule .initDeclarator)
  | .initDeclarator => .seq (.kind .ident) (.seq (.opt (.rule .declaratorSuffix)) .initialised)
  | .declaratorSuffix => .seq (.kind .lBracket) (.seq (.opt .size) (.kind .rBracket))
  | .initialiser =>
    .alt (.rule .expr)
      (.seq (.kind .lCurly) (.seq (.list (.kind .comma) (.rule .expr)) (.kind .rCurly)))
  | .type => .oneOf .kwVoid [.kwBoolean, .kwInt, .kwFloat]
  | .paraList => .parenthesised (.rule .paraDecl)
  | .paraDecl => .seq (.rule .type) (.seq (.kind .ident) (.opt (.rule .declaratorSuffix)))
  | .compoundStmt =>
    .seq (.kind .lCurly)
      (.seq (.many (.seq (.rule .type) (.seq (.rule .initDeclaratorList) (.kind .semicolon))))
        (.seq (.many (.rule .stmt)) (.kind .rCurly)))
  | .stmt =>
    .alts (.rule .compoundStmt) [.rule .ifStmt, .rule .forStmt, .rule .whileStmt,
      .seq (.kind .kwBreak) (.kind .semicolon), .seq (.kind .kwContinue) (.kind .semicolon),
      .seq (.kind .kwReturn) (.seq (.opt (.rule .expr)) (.kind .semicolon)),
      .seq (.opt (.rule .expr)) (.kind .semicolon)]
  | .ifStmt =>
    .seq (.kind .kwIf) (.seq (.kind .lParen) (.seq (.rule .expr) (.seq (.kind .rParen) (.seq (.rule .stmt)
      (.opt (.seq (.kind .kwElse) (.rule .stmt)))))))
  | .forStmt =>
    .seq (.kind .kwFor) (.seq (.kind .lParen) (.seq (.opt (.rule .expr)) (.seq (.kind .semicolon)
      (.seq (.opt (.rule .expr)) (.seq (.kind .semicolon) (.seq (.opt (.rule .expr)) (.seq (.kind .rParen)
        (.rule .stmt))))))))
  | .whileStmt =>
    .seq (.kind .kwWhile) (.seq (.kind .lParen) (.seq (.rule .expr) (.seq (.kind .rParen) (.rule .stmt))))
  | .expr => .alt (.rule .orExpr) (.seq (.rule .orExpr) (.seq (.kind .eq) (.rule .expr)))
  | .orExpr => .list (.kind .orOr) (.rule .andExpr)
  | .andExpr => .list (.kind .andAnd) (.rule .eqExpr)
  | .eqExpr => .list (.oneOf .eqEq [.notEq]) (.rule .relExpr)
  | .relExpr => .list (.oneOf .lt [.ltEq, .gt, .gtEq]) (.rule .addExpr)
  | .addExpr => .list (.oneOf .plus [.minus]) (.rule .mulExpr)
  | .mulExpr => .list (.oneOf .mult [.div]) (.rule .unaryExpr)
  | .unaryExpr => .alt (.seq (.oneOf .plus [.minus, .not]) (.rule .unaryExpr)) (.rule .primary)
  | .primary =>
    .alt (.seq (.kind .ident)
        (.opt (.alt (.rule .argList) (.seq (.kind .lBracket) (.seq (.rule .expr) (.kind .rBracket))))))
      (.alt (.seq (.kind .lParen) (.seq (.rule .expr) (.kind .rParen)))
        (.oneOf .intLiteral [.floatLiteral, .booleanLiteral, .stringLiteral]))
  | .argList => .parenthesised (.rule .expr)

/-- The words of a pattern. -/
inductive Derives : Pattern → List Token → Prop
  | kind {t : Token} : Derives (.kind t.kind) [t]
  | size {t : Token} : t.kind = .intLiteral → decimalValue t.spelling.toList ≤ 18446744073709551615 →
    Derives .size [t]
  | rule {r : Rule} {w : List Token} : Derives r.body w → Derives (.rule r) w
  | empty : Derives .empty []
  | seq {a b : Pattern} {u v : List Token} : Derives a u → Derives b v → Derives (.seq a b) (u ++ v)
  | altLeft {a b : Pattern} {w : List Token} : Derives a w → Derives (.alt a b) w
  | altRight {a b : Pattern} {w : List Token} : Derives b w → Derives (.alt a b) w
  | manyNil {a : Pattern} : Derives (.many a) []
  | manyCons {a : Pattern} {u v : List Token} : Derives a u → Derives (.many a) v →
    Derives (.many a) (u ++ v)

/-- A sentence of the language: a whole program with its end mark. -/
def Sentence (w : List Token) : Prop := Derives (.rule .program) w

/-- Some sentence begins with a list of tokens. -/
def Viable (w : List Token) : Prop := ∃ z, Sentence (w ++ z)

namespace Pattern

/-! ## The words of a pattern as a language -/

def lang (a : Pattern) : Language Token := {w | Derives a w}

theorem mem_kind {k : TokenKind} {w : List Token} : w ∈ (kind k).lang ↔ ∃ t : Token, t.kind = k ∧ w = [t] := by
  constructor
  · rintro ⟨⟩
    exact ⟨_, rfl, rfl⟩
  · rintro ⟨t, rfl, rfl⟩
    exact .kind

theorem mem_size {w : List Token} :
    w ∈ size.lang ↔
      ∃ t : Token, t.kind = .intLiteral ∧ decimalValue t.spelling.toList ≤ 18446744073709551615 ∧ w = [t] := by
  constructor
  · rintro ⟨⟩
    exact ⟨_, ‹_›, ‹_›, rfl⟩
  · rintro ⟨t, hk, hv, rfl⟩
    exact .size hk hv

theorem lang_rule (r : Rule) : (rule r).lang = r.body.lang := by
  ext w
  constructor
  · rintro ⟨⟩
    assumption
  · exact .rule

theorem lang_empty : empty.lang = 1 := by
  ext w
  rw [Language.mem_one]
  constructor
  · rintro ⟨⟩
    rfl
  · rintro rfl
    exact .empty

theorem lang_seq (a b : Pattern) : (seq a b).lang = a.lang * b.lang := by
  ext w
  rw [Language.mem_mul]
  constructor
  · rintro ⟨⟩
    exact ⟨_, ‹_›, _, ‹_›, rfl⟩
  · rintro ⟨u, hu, v, hv, rfl⟩
    exact .seq hu hv

theorem lang_alt (a b : Pattern) : (alt a b).lang = a.lang + b.lang := by
  ext w
  rw [Language.mem_add]
  constructor
  · rintro (_ | _)
    · exact .inl ‹_›
    · exact .inr ‹_›
  · rintro (h | h)
    · exact .altLeft h
    · exact .altRight h

theorem lang_opt (a : Pattern) : a.opt.lang = a.lang + 1 := by
  rw [opt, lang_alt, lang_empty]

/-- A repetition is nothing, or one item and a repetition. -/
theorem lang_many (a : Pattern) : (many a).lang = 1 + a.lang * (many a).lang := by
  ext w
  rw [Language.mem_add, Language.mem_one, Language.mem_mul]
  constructor
  · rintro (_ | _)
    · exact .inl rfl
    · exact .inr ⟨_, ‹_›, _, ‹_›, rfl⟩
  · rintro (rfl | ⟨u, hu, v, hv, rfl⟩)
    · exact .manyNil
    · exact .manyCons hu hv

theorem mem_oneOf {w : List Token} :
    ∀ {k : TokenKind} {ks : List TokenKind},
      w ∈ (oneOf k ks).lang ↔ ∃ t : Token, t.kind ∈ k :: ks ∧ w = [t]
  | k, [] => by simp only [oneOf, mem_kind, List.mem_singleton]
  | k, k' :: ks => by
    rw [oneOf, lang_alt, Language.mem_add, mem_kind, mem_oneOf, ← exists_or]
    simp only [List.mem_cons, ← or_and_right]

theorem mem_alts {w : List Token} :
    ∀ {a : Pattern} {as : List Pattern}, w ∈ (alts a as).lang ↔ ∃ c ∈ a :: as, w ∈ c.lang
  | a, [] => by simp only [alts, List.mem_singleton, exists_eq_left]
  | a, b :: bs => by
    rw [alts, lang_alt, Language.mem_add, mem_alts]
    simp only [List.mem_cons, exists_eq_or_imp]

theorem lang_list (separator item : Pattern) :
    (list separator item).lang = item.lang * (many (seq separator item)).lang := by
  rw [list, lang_seq]

/-! ## Every pattern has a word -/

/-- Whether a pattern has a word, given rules that have one. -/
def yields (known : Rule → Bool) : Pattern → Bool
  | .kind _ | .size | .empty | .many _ => true
  | .rule r => known r
  | .seq a b => a.yields known && b.yields known
  | .alt a b => a.yields known || b.yields known

theorem exists_word_of_yields {known : Rule → Bool} (hknown : ∀ r, known r = true → ∃ w, Derives r.body w) :
    ∀ a : Pattern, a.yields known = true → ∃ w, Derives a w
  | .kind k, _ => ⟨[⟨k, "", default⟩], .kind (t := ⟨k, "", default⟩)⟩
  | .size, _ => ⟨[⟨.intLiteral, "", default⟩], .size rfl (by decide)⟩
  | .empty, _ => ⟨[], .empty⟩
  | .many _, _ => ⟨[], .manyNil⟩
  | .rule r, h => by
    obtain ⟨w, hw⟩ := hknown r h
    exact ⟨w, .rule hw⟩
  | .seq a b, h => by
    rw [yields, Bool.and_eq_true] at h
    obtain ⟨u, hu⟩ := exists_word_of_yields hknown a h.1
    obtain ⟨v, hv⟩ := exists_word_of_yields hknown b h.2
    exact ⟨u ++ v, .seq hu hv⟩
  | .alt a b, h => by
    rw [yields, Bool.or_eq_true] at h
    rcases h with h | h
    · obtain ⟨u, hu⟩ := exists_word_of_yields hknown a h
      exact ⟨u, .altLeft hu⟩
    · obtain ⟨v, hv⟩ := exists_word_of_yields hknown b h
      exact ⟨v, .altRight hv⟩

end Pattern

/-- The rules that have a word with fewer than `n` rules inside each other. -/
def Rule.yieldsBy : Nat → Rule → Bool
  | 0, _ => false
  | n + 1, r => r.body.yields (yieldsBy n)

theorem Rule.exists_word_of_yieldsBy : ∀ (n : Nat) (r : Rule), yieldsBy n r = true → ∃ w, Derives r.body w
  | 0, _, h => nomatch h
  | n + 1, r, h => Pattern.exists_word_of_yields (exists_word_of_yieldsBy n) r.body h

theorem Rule.yieldsBy_all (r : Rule) : yieldsBy 14 r = true := by cases r <;> rfl

/-- Every pattern has a word, so that a word begun can be ended. -/
theorem Pattern.exists_word (a : Pattern) : ∃ w, w ∈ a.lang := by
  refine exists_word_of_yields (Rule.exists_word_of_yieldsBy 14) a ?_
  induction a with
  | kind | size | empty | many => rfl
  | rule r => exact r.yieldsBy_all
  | seq a b iha ihb => rw [yields, iha, ihb]; rfl
  | alt a b iha ihb => rw [yields, iha]; rfl

/-! ## First tokens -/

/-- The kinds of token that an operand begins with. -/
def startsPrimary : TokenKind → Bool
  | .ident | .lParen | .intLiteral | .floatLiteral | .booleanLiteral | .stringLiteral => true
  | _ => false

/-- The kinds of token that an expression begins with. -/
def startsExpr (k : TokenKind) : Bool := k = .plus || k = .minus || k = .not || startsPrimary k

/-- The kinds of token that a statement begins with. -/
def startsStmt : TokenKind → Bool
  | .lCurly | .kwIf | .kwFor | .kwWhile | .kwBreak | .kwContinue | .kwReturn | .semicolon => true
  | k => startsExpr k

/-- The kinds of token that the words of a rule begin with. -/
def Rule.first : Rule → TokenKind → Bool
  | .program => fun k => k.isType || k = .eof
  | .funcRest | .paraList | .argList => (· = .lParen)
  | .varRest => fun k => k = .lBracket || k = .eq || k = .comma || k = .semicolon
  | .initDeclaratorList | .initDeclarator => (· = .ident)
  | .declaratorSuffix => (· = .lBracket)
  | .initialiser => fun k => startsExpr k || k = .lCurly
  | .type | .paraDecl => TokenKind.isType
  | .compoundStmt => (· = .lCurly)
  | .stmt => startsStmt
  | .ifStmt => (· = .kwIf)
  | .forStmt => (· = .kwFor)
  | .whileStmt => (· = .kwWhile)
  | .expr | .orExpr | .andExpr | .eqExpr | .relExpr | .addExpr | .mulExpr | .unaryExpr => startsExpr
  | .primary => startsPrimary

namespace Pattern

/-- Whether a pattern has the empty word; no rule has it. -/
def nullable : Pattern → Bool
  | .kind _ | .size | .rule _ => false
  | .empty | .many _ => true
  | .seq a b => a.nullable && b.nullable
  | .alt a b => a.nullable || b.nullable

/-- The kinds of token that the words of a pattern begin with. -/
def first : Pattern → TokenKind → Bool
  | .kind k, k' => k' = k
  | .size, k => k = .intLiteral
  | .rule r, k => r.first k
  | .empty, _ => false
  | .many a, k => a.first k
  | .seq a b, k => a.first k || (a.nullable && b.first k)
  | .alt a b, k => a.first k || b.first k

end Pattern

/-- The table of first tokens is closed under the rules. -/
theorem Rule.first_body (r : Rule) (k : TokenKind) : r.body.first k = r.first k := by
  cases r <;> cases k <;> rfl

theorem Rule.nullable_body (r : Rule) : r.body.nullable = false := by cases r <;> rfl

namespace Pattern

theorem nullable_of_derives {a : Pattern} {w : List Token} (h : Derives a w) (hw : w = []) :
    a.nullable = true := by
  induction h with
  | kind | size => cases hw
  | @rule r w _ ih => exact absurd (ih hw) (by rw [r.nullable_body]; decide)
  | empty | manyNil | manyCons => rfl
  | seq _ _ iha ihb =>
    obtain ⟨hu, hv⟩ := List.append_eq_nil_iff.1 hw
    rw [nullable, iha hu, ihb hv]
    rfl
  | altLeft _ ih => rw [nullable, ih hw, Bool.true_or]
  | altRight _ ih => rw [nullable, ih hw, Bool.or_true]

theorem nil_mem : ∀ {a : Pattern}, a.nullable = true → [] ∈ a.lang
  | .empty, _ => .empty
  | .many _, _ => .manyNil
  | .seq a b, h => by
    rw [nullable, Bool.and_eq_true] at h
    exact .seq (nil_mem h.1) (nil_mem h.2)
  | .alt a b, h => by
    rw [nullable, Bool.or_eq_true] at h
    exact h.elim (fun h => .altLeft (nil_mem h)) fun h => .altRight (nil_mem h)

/-- The words of a pattern that is not nullable are not empty. -/
theorem ne_nil {a : Pattern} {w : List Token} (hn : a.nullable = false) (h : w ∈ a.lang) : w ≠ [] := by
  intro hw
  rw [nullable_of_derives h hw] at hn
  cases hn

/-- The table of first tokens is right. -/
theorem first_of_derives {a : Pattern} {w : List Token} (h : Derives a w) :
    ∀ t ts, w = t :: ts → a.first t.kind = true := by
  induction h with
  | kind =>
    rintro t ts ⟨⟩
    exact decide_eq_true rfl
  | size hk _ =>
    rintro t ts ⟨⟩
    exact decide_eq_true hk
  | @rule r w _ ih =>
    intro t ts hw
    rw [first, ← r.first_body]
    exact ih t ts hw
  | empty | manyNil => rintro t ts ⟨⟩
  | @seq a b u v hu _ iha ihb =>
    intro t ts hw
    rw [first, Bool.or_eq_true, Bool.and_eq_true]
    rcases u with _ | ⟨t', u⟩
    · exact .inr ⟨nullable_of_derives hu rfl, ihb t ts hw⟩
    · cases hw
      exact .inl (iha _ _ rfl)
  | altLeft _ ih =>
    intro t ts hw
    rw [first, ih t ts hw, Bool.true_or]
  | altRight _ ih =>
    intro t ts hw
    rw [first, ih t ts hw, Bool.or_true]
  | @manyCons a u v _ _ iha ihv =>
    intro t ts hw
    rcases u with _ | ⟨t', u⟩
    · exact ihv t ts hw
    · cases hw
      exact iha _ _ rfl

/-- A word of a pattern with what follows it begins as the pattern does, or with what follows. -/
theorem first_of_mem_mul {a : Pattern} {K : Language Token} {t : Token} {ts : List Token}
    (h : t :: ts ∈ a.lang * K) : a.first t.kind = true ∨ (a.nullable = true ∧ t :: ts ∈ K) := by
  obtain ⟨u, hu, v, hv, huv⟩ := Language.mem_mul.1 h
  rcases u with _ | ⟨t', u⟩
  · rw [← huv]
    exact .inr ⟨nullable_of_derives hu rfl, hv⟩
  · cases huv
    exact .inl (first_of_derives hu _ _ rfl)

end Pattern
end VCLang
