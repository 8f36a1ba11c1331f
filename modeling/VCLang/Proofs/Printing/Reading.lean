/-
How a step of a parse reads given words: from a parser that has these words before it and behind them one of some
kinds, it moves past them and no further, and its result is of some sort. Steps that read words are put together
as the words are, and each may look at the word behind its own.
-/
import Mathlib.Algebra.Order.BigOperators.Group.List
import VCLang.Proofs.Grammar.Reads
import VCLang.Proofs.Printing.Printer
import VCLang.Proofs.Tree.Bare
namespace VCLang

variable {α β γ : Type}

/-! ## The words of a parser -/

namespace Parser

/-- The words of the tokens that a parser has not moved past. -/
def words (p : Parser) : List Word := p.tokens.map Token.word

variable {p : Parser} {w : Word} {ws : List Word}

theorem length_words (p : Parser) : p.words.length = p.remaining + 1 := by
  rw [words, List.length_map, length_tokens]

theorem word_current (h : p.words = w :: ws) : p.current.word = w := (List.cons.inj h).1

theorem kind_current (h : p.words = w :: ws) : p.current.kind = w.kind := congrArg Word.kind (word_current h)

/-- Where words are left behind it, a parser moves past the current one. -/
theorem words_advance (h : p.words = w :: ws) (hne : ws ≠ []) : p.advance.words = ws := by
  have hws : p.upcoming.map (fun l => l.token.word) = ws := by
    rw [← (List.cons.inj h).2, List.map_map]
    rfl
  unfold advance
  split
  · rename_i hnil
    rw [hnil] at hws
    exact absurd hws.symm hne
  · rename_i l ls hls
    rw [hls] at hws
    rw [← hws, words, tokens, List.map_cons, List.map_map]
    rfl

end Parser

/-- Some words begin with a word of some kinds. -/
def Begins (S : TokenKind → Bool) : List Word → Prop
  | [] => False
  | w :: _ => S w.kind = true

namespace Begins

variable {S T : TokenKind → Bool} {ws vs : List Word}

theorem append (h : Begins S ws) : Begins S (ws ++ vs) := by
  cases ws with
  | nil => exact h.elim
  | cons w ws => exact h

theorem mono (h : Begins S ws) (hS : ∀ k, S k = true → T k = true) : Begins T ws := by
  cases ws with
  | nil => exact h.elim
  | cons w ws => exact hS _ h

/-- What goes on somehow begins somehow. -/
theorem any (h : Begins S ws) : Begins (fun _ => true) (vs ++ ws) := by
  cases vs with
  | nil => exact h.mono fun _ _ => rfl
  | cons v vs => rfl

theorem ne_nil (h : Begins S ws) : ws ≠ [] := by
  rintro rfl
  exact h

end Begins

namespace Parse

/-! ## Steps -/

/-- A step reads some words, if one of some kinds follows them and there are no more than `n` words in all, and
its result has a property. -/
def Takes (n : Nat) (m : Parse α) (ws : List Word) (S : TokenKind → Bool) (P : α → Prop) : Prop :=
  ∀ p rest, p.words = ws ++ rest → p.words.length ≤ n → Begins S rest →
    ∃ a q, m p = (.ok a, q) ∧ q.words = rest ∧ P a

namespace Takes

variable {n : Nat} {m : Parse α} {f : α → Parse β} {ws vs : List Word} {S T : TokenKind → Bool} {P : α → Prop}
  {Q : β → Prop} {k : TokenKind} {w : Word}

theorem weaken {P' : α → Prop} {n' : Nat} (h : Takes n m ws S P) (hn : n' ≤ n) (hS : ∀ k, T k = true → S k = true)
    (hP : ∀ a, P a → P' a) : Takes n' m ws T P' := by
  intro p rest hp hlength hrest
  obtain ⟨a, q, hm, hq, ha⟩ := h p rest hp (hlength.trans hn) (hrest.mono hS)
  exact ⟨a, q, hm, hq, hP a ha⟩

theorem before (h : Takes n m ws S P) (hS : ∀ k, T k = true → S k = true) : Takes n m ws T P :=
  h.weaken le_rfl hS fun _ ha => ha

theorem pure {a : α} (h : P a) : Takes n (pure a) [] S P := fun p _ hp _ _ => ⟨a, p, rfl, hp, h⟩

/-- One step after another; the words of the second follow those of the first. -/
theorem bind (hm : Takes n m ws T P) (hf : ∀ a, P a → Takes n (f a) vs S Q)
    (hT : ∀ rest, Begins S rest → Begins T (vs ++ rest)) : Takes n (m >>= f) (ws ++ vs) S Q := by
  intro p rest hp hlength hrest
  rw [List.append_assoc] at hp
  obtain ⟨a, q, hma, hq, ha⟩ := hm p (vs ++ rest) hp hlength (hT rest hrest)
  have hle : q.words.length ≤ p.words.length := by
    rw [hp, hq]
    exact (List.suffix_append ws _).length_le
  obtain ⟨b, r, hfb, hr, hb⟩ := hf a ha q rest hq (hle.trans hlength) hrest
  exact ⟨b, r, (bind_ok hma).trans hfb, hr, hb⟩

/-- A step that reads one word, in front of others. -/
theorem bind_head (hm : Takes n m [w] T P) (hf : ∀ a, P a → Takes n (f a) vs S Q)
    (hT : ∀ rest, Begins S rest → Begins T (vs ++ rest)) : Takes n (m >>= f) (w :: vs) S Q := bind hm hf hT

/-- A step that only looks at what follows, in front of others. -/
theorem bind_nil (hm : Takes n m [] T P) (hf : ∀ a, P a → Takes n (f a) vs S Q)
    (hT : ∀ rest, Begins S rest → Begins T (vs ++ rest)) : Takes n (m >>= f) vs S Q := bind hm hf hT

/-- The last step that reads words. -/
theorem bind_last (hm : Takes n m ws S P) (hf : ∀ a, P a → Takes n (f a) [] S Q) : Takes n (m >>= f) ws S Q := by
  rw [← List.append_nil ws]
  exact bind hm hf fun _ hrest => hrest

theorem map {g : α → β} (h : Takes n m ws S fun a => Q (g a)) : Takes n (g <$> m) ws S Q := by
  intro p rest hp hlength hrest
  obtain ⟨a, q, hm, hq, ha⟩ := h p rest hp hlength hrest
  exact ⟨g a, q, bind_ok hm, hq, ha⟩

/-- A step that stays where it is, in front of others. -/
theorem silent_bind (hm : m.Silent) (hf : ∀ a, Takes n (f a) ws S Q) : Takes n (m >>= f) ws S Q := by
  intro p rest hp hlength hrest
  obtain ⟨a, q, hma, hq⟩ := hm p
  have hwords : q.words = p.words := by rw [Parser.words, hq, Parser.words]
  obtain ⟨b, r, hfb, hr, hb⟩ := hf a q rest (hwords.trans hp) (by rwa [hwords]) hrest
  exact ⟨b, r, (bind_ok hma).trans hfb, hr, hb⟩

theorem pure_bind {a : α} (h : Takes n (f a) ws S Q) : Takes n (Pure.pure a >>= f) ws S Q := h

/-- The last step before a result. -/
theorem bind_pure {g : α → β} (hm : Takes n m ws S P) (h : ∀ a, P a → Q (g a)) :
    Takes n (m >>= fun a => Pure.pure (g a)) ws S Q := bind_last hm fun a ha => pure (h a ha)

/-! ## Looking at a word -/

/-- A step may look at the first of its words. -/
theorem kind_bind {f : TokenKind → Parse β} (hb : Begins T ws) (h : ∀ k, T k = true → Takes n (f k) ws S Q) :
    Takes n (kind >>= f) ws S Q := by
  intro p rest hp hlength hrest
  cases ws with
  | nil => exact hb.elim
  | cons w ws =>
    have hk := Parser.kind_current hp
    obtain ⟨b, q, hf, hq, hb⟩ := h w.kind hb p rest hp hlength hrest
    refine ⟨b, q, ?_, hq, hb⟩
    rw [Parse.kind_bind, hk]
    exact hf

/-- A step may look at the word behind its own, if it has none. -/
theorem kind_follow {f : TokenKind → Parse β} (h : ∀ k, S k = true → Takes n (f k) [] (· = k) Q) :
    Takes n (kind >>= f) [] S Q := by
  intro p rest hp hlength hrest
  cases rest with
  | nil => exact hrest.elim
  | cons w ws =>
    have hk := Parser.kind_current hp
    obtain ⟨b, q, hf, hq, hb⟩ := h w.kind hrest p (w :: ws) hp hlength (decide_eq_true rfl)
    refine ⟨b, q, ?_, hq, hb⟩
    rw [Parse.kind_bind, hk]
    exact hf

/-- A step may look at the first of its words as a token. -/
theorem current_bind {f : Token → Parse β} (h : ∀ t, t.word = w → Takes n (f t) (w :: ws) S Q) :
    Takes n (current >>= f) (w :: ws) S Q :=
  fun p rest hp hlength hrest => h p.current (Parser.word_current hp) p rest hp hlength hrest

/-! ## Moving on -/

theorem advance_bind {f : Token → Parse β} (h : ∀ t, t.word = w → Takes (n - 1) (f t) ws S Q) :
    Takes n (advance >>= f) (w :: ws) S Q := by
  intro p rest hp hlength hrest
  have hne : ws ++ rest ≠ [] := List.append_ne_nil_of_right_ne_nil _ hrest.ne_nil
  have hwords : p.advance.words = ws ++ rest := Parser.words_advance hp hne
  have hle : (ws ++ rest).length + 1 ≤ n := by
    rw [hp] at hlength
    exact hlength
  exact h p.current (Parser.word_current hp) p.advance rest hwords (by rw [hwords]; omega) hrest

theorem advance : Takes n advance [w] S fun t => t.word = w := by
  intro p rest hp _ hrest
  exact ⟨p.current, p.advance, rfl, Parser.words_advance hp hrest.ne_nil, Parser.word_current hp⟩

theorem expect_bind {f : Token → Parse β} (hw : w.kind = k) (h : ∀ t, t.word = w → Takes (n - 1) (f t) ws S Q) :
    Takes n (expect k >>= f) (w :: ws) S Q := by
  intro p rest hp hlength hrest
  have hexpect : expect k p = Parse.advance p := by
    rw [expect, Parse.kind_bind, Parser.kind_current hp, if_pos hw]
  have hadvance := advance_bind h p rest hp hlength hrest
  rw [bind_apply] at hadvance ⊢
  rwa [hexpect]

theorem expect (hw : w.kind = k) : Takes n (expect k) [w] S fun t => t.word = w := by
  intro p rest hp hlength hrest
  have hexpect : Parse.expect k p = Parse.advance p := by
    rw [Parse.expect, Parse.kind_bind, Parser.kind_current hp, if_pos hw]
  rw [hexpect]
  exact advance p rest hp hlength hrest

theorem expectIdent_bind {i : Ident} {f : Ident → Parse β}
    (h : ∀ i', i'.bare = i.bare → Takes (n - 1) (f i') ws S Q) : Takes n (expectIdent >>= f) (i.word :: ws) S Q := by
  intro p rest hp hlength hrest
  have hident : expectIdent p = (do let t ← Parse.advance; return Ident.unbound t.spelling t.span) p := by
    have hkind : i.word.kind = .ident := rfl
    rw [expectIdent, Parse.kind_bind, Parser.kind_current hp, if_pos hkind]
  have hadvance := advance_bind (f := fun t => f (.unbound t.spelling t.span)) (fun t ht => h _ ?_) p rest hp hlength
    hrest
  · rw [bind_apply, hident]
    exact hadvance
  · have hspelling : t.spelling = i.spelling := congrArg Word.spelling ht
    show Ident.bare (.unbound t.spelling t.span) = i.bare
    rw [hspelling]
    rfl

/-! ## Building nodes -/

theorem newExpr {build : ExprInfo → Expr} {span : Span} {e : Expr} (h : ∀ info, (build info).bare = e.bare) :
    Takes n (newExpr build span) [] S fun e' => e'.bare = e.bare :=
  fun _ _ hp _ _ => ⟨_, _, rfl, hp, h _⟩

theorem newStmt {build : StmtInfo → Stmt} {span : Span} {s : Stmt} (h : ∀ info, (build info).bare = s.bare) :
    Takes n (newStmt build span) [] S fun s' => s'.bare = s.bare :=
  fun _ _ hp _ _ => ⟨_, _, rfl, hp, h _⟩

/-! ## Repetition -/

section Repetition

variable {item : Parse α} {words : β → List Word} {f : α → γ} {g : β → γ} {test : TokenKind → Bool}

/-- No item, in front of a word that fails the test. -/
theorem manyUpTo_nil (hS : ∀ k, S k = true → test k = false) (l : Nat) :
    Takes n (manyUpTo test item l) [] S fun as => as = [] := by
  cases l with
  | zero => exact pure rfl
  | succ l =>
    unfold Parse.manyUpTo
    refine kind_follow fun k hk => ?_
    rw [hS k hk]
    exact pure rfl

theorem many_nil (hS : ∀ k, S k = true → test k = false) : Takes n (many test item) [] S fun as => as = [] :=
  fun p => manyUpTo_nil hS (p.remaining + 1) p

/-- Items that begin as the test says, one behind the other, up to a word that fails the test. -/
theorem manyUpTo {xs : List β}
    (hitem : ∀ x ∈ xs, Begins T (words x) ∧ Takes n item (words x) (fun k => T k || S k) fun a => f a = g x)
    (hT : ∀ k, T k = true → test k = true) (hS : ∀ k, S k = true → test k = false) {l : Nat} (hl : xs.length ≤ l) :
    Takes n (manyUpTo test item l) (xs.flatMap words) S fun as => as.map f = xs.map g := by
  induction xs generalizing l with
  | nil => exact (manyUpTo_nil hS l).weaken le_rfl (fun _ hk => hk) fun as has => by rw [has]; rfl
  | cons x xs ih =>
    obtain ⟨l, rfl⟩ := Nat.exists_eq_succ_of_ne_zero (Nat.ne_of_gt (Nat.zero_lt_of_lt hl))
    obtain ⟨⟨hbegins, hx⟩, hxs⟩ := List.forall_mem_cons.1 hitem
    unfold Parse.manyUpTo
    rw [List.flatMap_cons]
    refine kind_bind hbegins.append fun k hk => ?_
    rw [if_pos (hT k hk)]
    refine bind hx (fun a ha => ?_) fun rest hrest => ?_
    · refine bind_pure (ih hxs (Nat.le_of_succ_le_succ hl)) fun as has => ?_
      rw [List.map_cons, List.map_cons, ha, has]
    · cases xs with
      | nil => exact hrest.mono fun k hk => by rw [hk, Bool.or_true]
      | cons y ys =>
        have hy := (hxs y (by simp)).1
        rw [List.flatMap_cons, List.append_assoc]
        exact hy.append.mono fun k hk => by rw [hk, Bool.true_or]

theorem many {xs : List β}
    (hitem : ∀ x ∈ xs, Begins T (words x) ∧ Takes n item (words x) (fun k => T k || S k) fun a => f a = g x)
    (hT : ∀ k, T k = true → test k = true) (hS : ∀ k, S k = true → test k = false) :
    Takes n (many test item) (xs.flatMap words) S fun as => as.map f = xs.map g := by
  intro p rest hp hlength hrest
  -- every item has a word
  have hle : xs.length ≤ (xs.flatMap words).length := by
    have hsum := List.length_le_sum_of_one_le (xs.map fun x => (words x).length) fun l hl => by
      obtain ⟨x, hx, rfl⟩ := List.mem_map.1 hl
      exact List.length_pos_of_ne_nil (hitem x hx).1.ne_nil
    rwa [List.length_map, ← List.length_flatMap] at hsum
  have hlength' := congrArg List.length hp
  rw [Parser.length_words, List.length_append] at hlength'
  exact manyUpTo hitem hT hS (by omega) p rest hp hlength hrest

/-- One or more items with commas between them. -/
theorem commaList {x : β} {xs : List β}
    (hitem : ∀ y ∈ x :: xs, Takes n item (words y) (fun k => k = .comma || S k) fun a => f a = g y)
    (hS : ∀ k, S k = true → k ≠ .comma) :
    Takes n (commaList item) (Word.separated ((x :: xs).map words)) S fun as => as.map f = (x :: xs).map g := by
  obtain ⟨hx, hxs⟩ := List.forall_mem_cons.1 hitem
  have hnext : ∀ y ∈ xs, Begins (· = .comma) (TokenKind.comma.word :: words y) ∧
      Takes n (do let _ ← Parse.advance; item) (TokenKind.comma.word :: words y) (fun k => k = .comma || S k)
        fun a => f a = g y := fun y hy =>
    ⟨decide_eq_true rfl, advance_bind fun _ _ => (hxs y hy).weaken (Nat.sub_le _ _) (fun _ hk => hk) fun _ ha => ha⟩
  have htail := many (S := S) hnext (fun _ hk => hk) fun k hk => decide_eq_false (hS k hk)
  unfold Parse.commaList
  rw [List.map_cons, Word.separated, List.flatMap_map]
  refine bind hx (fun a ha => ?_) fun rest hrest => ?_
  · refine bind_pure htail fun as has => ?_
    rw [List.map_cons, List.map_cons, ha, has]
  · cases xs with
    | nil => exact hrest.mono fun k hk => by rw [hk, Bool.or_true]
    | cons y ys => rfl

/-- Items in parentheses with commas between them. -/
theorem parenthesised {xs : List β}
    (hitem : ∀ y ∈ xs, Begins (fun k => k ≠ .rParen) (words y) ∧
      Takes n item (words y) (fun k => k = .comma || k = .rParen) fun a => f a = g y) :
    Takes n (parenthesised item) (Word.parenthesised (Word.separated (xs.map words))) S
      fun as => as.map f = xs.map g := by
  unfold Parse.parenthesised
  refine expect_bind rfl fun _ _ => ?_
  cases xs with
  | nil =>
    refine kind_bind (T := (· = .rParen)) (decide_eq_true rfl) fun k hk => ?_
    rw [if_pos (of_decide_eq_true hk)]
    refine pure_bind (bind_pure (expect rfl) fun _ _ => rfl)
  | cons x xs =>
    obtain ⟨hbegins, -⟩ := hitem x (by simp)
    have hlist := commaList (S := (· = .rParen)) (fun y hy => (hitem y hy).2) fun k hk => by
      rw [of_decide_eq_true hk]
      decide
    refine kind_bind (T := fun k => k ≠ .rParen) ?_ fun k hk => ?_
    · rw [List.map_cons, Word.separated, List.append_assoc]
      exact hbegins.append
    · rw [if_neg (of_decide_eq_true hk)]
      refine bind (hlist.weaken (Nat.sub_le _ _) (fun _ hk => hk) fun _ has => has) (fun as has => ?_) fun _ _ => rfl
      exact bind_pure (expect rfl) fun _ _ => has

end Repetition

end Takes

end Parse

end VCLang
