/-
What it means that a step of a parse reads a pattern, and how steps that read patterns are put together.

A step that succeeds has moved past a word of the pattern, and no other cut would do: whatever may follow
the pattern and goes on with the token the step stopped at follows the word that was read. A step that fails
has moved past the beginning of a word, and no word of the pattern with what may follow it goes on with the
token the step stopped at. What may follow is a language `K` that satisfies a condition `F`; the pattern
after a step belongs to what follows the step, so that sequences need no lookahead of their own.
-/
import VCLang.Grammar.Parser
import VCLang.Proofs.Grammar.Language
namespace VCLang

variable {α β : Type}

/-! ## The tokens of a parser -/

namespace Parser

/-- The tokens that a parser has not moved past. -/
def tokens (p : Parser) : List Token := p.current :: p.upcoming.map Lexeme.token

/-- A parser with fewer than `n` tokens behind the current one, whose tokens are as a text has them: the
end mark is the last token and no other, and an integer literal is a numeral. -/
structure Ready (n : Nat) (p : Parser) : Prop where
  few : p.remaining < n
  ends : ∀ front t ts, p.tokens = front ++ t :: ts → (t.kind = .eof ↔ ts = [])
  numerals : ∀ t ∈ p.tokens, t.kind = .intLiteral →
    t.spelling.toList ≠ [] ∧ t.spelling.toList.all Char.isDigit = true

variable {n : Nat} {p q : Parser} {w : List Token}

theorem length_tokens (p : Parser) : p.tokens.length = p.remaining + 1 := by
  simp [tokens, remaining]

theorem Ready.later (h : p.Ready n) (ht : p.tokens = w ++ q.tokens) : q.Ready (n - w.length) := by
  have hlen := congrArg List.length ht
  rw [List.length_append, length_tokens, length_tokens] at hlen
  have hfew := h.few
  refine ⟨by omega, fun front t ts hq => ?_, fun t hq => ?_⟩
  · exact h.ends (w ++ front) t ts (by rw [ht, hq, List.append_assoc])
  · exact h.numerals t (by rw [ht]; exact List.mem_append_right w hq)

theorem Ready.mono {m : Nat} (h : p.Ready n) (hm : n ≤ m) : p.Ready m :=
  ⟨Nat.lt_of_lt_of_le h.few hm, h.ends, h.numerals⟩

theorem Ready.after (h : p.Ready n) (ht : p.tokens = w ++ q.tokens) : q.Ready n :=
  (h.later ht).mono (Nat.sub_le _ _)

theorem Ready.of_tokens (h : p.Ready n) (ht : q.tokens = p.tokens) : q.Ready n :=
  h.after (w := []) ht.symm

theorem Ready.self (h : p.Ready n) : p.Ready (p.remaining + 1) := ⟨Nat.lt_succ_self _, h.ends, h.numerals⟩

/-- Behind a token, one token less is left. -/
theorem Ready.next (h : p.Ready (n + 1)) (ht : p.tokens = w ++ q.tokens) (hw : w ≠ []) : q.Ready n := by
  have hpos := List.length_pos_iff.2 hw
  exact (h.later ht).mono (by omega)

theorem Ready.eof_iff (h : p.Ready n) : p.current.kind = .eof ↔ p.upcoming = [] := by
  rw [h.ends [] p.current _ rfl, List.map_eq_nil_iff]

/-- Where the text goes on, moving on is moving past the current token. -/
theorem Ready.tokens_advance (h : p.Ready n) (hk : p.current.kind ≠ .eof) :
    p.tokens = [p.current] ++ p.advance.tokens := by
  have hne : p.upcoming ≠ [] := fun hnil => hk (h.eof_iff.2 hnil)
  unfold advance
  split
  · rename_i hnil
    exact absurd hnil hne
  · rename_i l ls hl
    simp only [tokens, hl, List.map_cons, List.singleton_append]

/-- What goes on from one place with the token that another parser stands at begins with the token of the
first, if the second has moved on from it. -/
theorem exists_cons (ht : p.tokens = w ++ q.tokens) (v : List Token) :
    ∃ ts, w ++ q.current :: v = p.current :: ts := by
  rcases w with _ | ⟨t, w⟩
  · have h := (List.cons.inj ht).1
    exact ⟨v, by rw [h, List.nil_append]⟩
  · have h := (List.cons.inj ht).1
    exact ⟨w ++ q.current :: v, by rw [h, List.cons_append]⟩

end Parser

/-! ## Reading -/

/-- The outcome of a step from `p` reads a pattern, if what follows it satisfies `F`. -/
inductive Reads (F : Language Token → Prop) (a : Pattern) (p : Parser) : Except Error α × Parser → Prop
  | ok {x : α} {q : Parser} {w : List Token} : p.tokens = w ++ q.tokens → w ∈ a.lang →
    (∀ K v, F K → w ++ q.current :: v ∈ a.lang * K → q.current :: v ∈ K) → Reads F a p (.ok x, q)
  | error {e : Error} {q : Parser} {w z : List Token} : p.tokens = w ++ q.tokens →
    e.span = q.current.span → w ++ z ∈ a.lang →
    (∀ K v, F K → w ++ q.current :: v ∉ a.lang * K) → Reads F a p (.error e, q)

/-- A language in which every word that is not empty begins with a token of some kinds. -/
def Follow (S : TokenKind → Bool) (K : Language Token) : Prop := ∀ t ts, t :: ts ∈ K → S t.kind = true

/-- A step that succeeds and stays where it is. -/
def Parse.Silent (m : Parse α) : Prop := ∀ p, ∃ x q, m p = (.ok x, q) ∧ q.tokens = p.tokens

theorem Parse.kind_bind (f : TokenKind → Parse α) (p : Parser) :
    (Parse.kind >>= f) p = f p.current.kind p := rfl

theorem Parse.current_bind (f : Token → Parse α) (p : Parser) :
    (Parse.current >>= f) p = f p.current p := rfl

/-- What goes on in the same way after both branches of a choice goes on after the choice. -/
theorem Parse.ite_bind {c : Prop} [Decidable c] (m m' : Parse α) (f : α → Parse β) :
    (if c then m >>= f else m' >>= f) = (if c then m else m') >>= f := by
  split_ifs <;> rfl

theorem Follow.mul {S : TokenKind → Bool} {a : Pattern} {K : Language Token}
    (ha : ∀ k, a.first k = true → S k = true) (hK : a.nullable = true → Follow S K) :
    Follow S (a.lang * K) := by
  intro t ts h
  rcases Pattern.first_of_mem_mul h with h | ⟨hn, h⟩
  · exact ha _ h
  · exact hK hn t ts h

/-- Behind a pattern that is never empty, only this pattern follows. -/
theorem Follow.nonempty {S : TokenKind → Bool} {a : Pattern} {K : Language Token}
    (ha : ∀ k, a.first k = true → S k = true) (hn : a.nullable = false) : Follow S (a.lang * K) := by
  refine Follow.mul ha fun h => ?_
  rw [hn] at h
  cases h

theorem Follow.mono {S S' : TokenKind → Bool} {K : Language Token} (hS : ∀ k, S k = true → S' k = true)
    (h : Follow S K) : Follow S' K :=
  fun t ts ht => hS _ (h t ts ht)

theorem Follow.not_mem {S : TokenKind → Bool} {K : Language Token} {t : Token} {ts : List Token}
    (h : Follow S K) (ht : S t.kind = false) : t :: ts ∉ K := by
  intro hm
  rw [h t ts hm] at ht
  cases ht

/-- No word of a pattern begins with a token that none of them begins with. -/
theorem Pattern.not_mem_mul {a : Pattern} {K : Language Token} {t : Token} {ts : List Token}
    (hf : a.first t.kind = false) (hn : a.nullable = false) : t :: ts ∉ a.lang * K := by
  intro h
  rcases Pattern.first_of_mem_mul h with h | ⟨h, -⟩
  · rw [hf] at h
    cases h
  · rw [hn] at h
    cases h

namespace Reads

variable {F G : Language Token → Prop} {a b c : Pattern} {p : Parser} {n : Nat} {k : TokenKind}

/-- A larger pattern is read just as well, if no more of its words begin with the current token. -/
theorem narrow {r : Except Error α × Parser} (h : Reads G a p r) (hle : ∀ w ∈ a.lang, w ∈ b.lang)
    (hF : ∀ K, F K → G K)
    (hb : ∀ K ts, F K → p.current :: ts ∈ b.lang * K → p.current :: ts ∈ a.lang * K) : Reads F b p r := by
  cases h with
  | ok ht hw hrest =>
    refine .ok ht (hle _ hw) fun K v hK hv => hrest K v (hF K hK) ?_
    obtain ⟨ts, hts⟩ := Parser.exists_cons ht v
    rw [hts] at hv ⊢
    exact hb K ts hK hv
  | error ht hspan hw hstuck =>
    refine .error ht hspan (hle _ hw) fun K v hK hv => hstuck K v (hF K hK) ?_
    obtain ⟨ts, hts⟩ := Parser.exists_cons ht v
    rw [hts] at hv ⊢
    exact hb K ts hK hv

theorem weaken {r : Except Error α × Parser} (h : Reads G a p r) (hF : ∀ K, F K → G K) : Reads F a p r :=
  h.narrow (fun _ hw => hw) hF fun _ _ _ hv => hv

theorem congr {r : Except Error α × Parser} (h : Reads F a p r) (hab : a.lang = b.lang) : Reads F b p r := by
  refine h.narrow (fun w hw => ?_) (fun _ hK => hK) fun K ts _ hv => ?_
  · rwa [← hab]
  · rwa [hab]

/-- What is read depends on the tokens of a parser alone. -/
theorem of_tokens {r : Except Error α × Parser} {q : Parser} (h : Reads F a p r) (ht : q.tokens = p.tokens) :
    Reads F a q r := by
  cases h with
  | ok htokens hw hrest => exact .ok (ht.trans htokens) hw hrest
  | error htokens hspan hw hstuck => exact .error (ht.trans htokens) hspan hw hstuck

theorem alt_left {r : Except Error α × Parser} (h : Reads F a p r)
    (hb : ∀ K ts, F K → p.current :: ts ∉ b.lang * K) : Reads F (.alt a b) p r := by
  refine h.narrow (fun w hw => .altLeft hw) (fun _ hK => hK) fun K ts hK hv => ?_
  rw [Pattern.lang_alt, add_mul, Language.mem_add] at hv
  exact hv.resolve_right (hb K ts hK)

theorem alt_right {r : Except Error α × Parser} (h : Reads F b p r)
    (ha : ∀ K ts, F K → p.current :: ts ∉ a.lang * K) : Reads F (.alt a b) p r := by
  refine h.narrow (fun w hw => .altRight hw) (fun _ hK => hK) fun K ts hK hv => ?_
  rw [Pattern.lang_alt, add_mul, Language.mem_add] at hv
  exact hv.resolve_left (ha K ts hK)

/-- One of some patterns is read, if no word of another begins with the current token. -/
theorem alts {r : Except Error α × Parser} {bs : List Pattern} (h : Reads F a p r) (ha : a ∈ b :: bs)
    (hc : ∀ c ∈ b :: bs, c = a ∨ c.first p.current.kind = false ∧ c.nullable = false) :
    Reads F (.alts b bs) p r := by
  refine h.narrow (fun w hw => Pattern.mem_alts.2 ⟨a, ha, hw⟩) (fun _ hK => hK) fun K ts hK hv => ?_
  obtain ⟨u, hu, v, hv, huv⟩ := Language.mem_mul.1 hv
  obtain ⟨c, hm, hu⟩ := Pattern.mem_alts.1 hu
  rcases hc c hm with rfl | ⟨hf, hn⟩
  · exact Language.mem_mul.2 ⟨u, hu, v, hv, huv⟩
  · exact absurd (Language.mem_mul.2 ⟨u, hu, v, hv, huv⟩) (Pattern.not_mem_mul hf hn)

theorem rule {r : Rule} {o : Except Error α × Parser} (h : Reads F r.body p o) : Reads F (.rule r) p o :=
  h.congr (Pattern.lang_rule r).symm

/-- What may be absent is read where it is present, if nothing that follows begins like it. -/
theorem opt {r : Except Error α × Parser} (h : Reads F a p r) (hF : ∀ K ts, F K → p.current :: ts ∉ K) :
    Reads F a.opt p r := by
  refine h.alt_left fun K ts hK hv => hF K ts hK ?_
  rwa [Pattern.lang_empty, one_mul] at hv

/-! ## Steps that stay -/

/-- A step that stays reads a pattern with the empty word, if no other word begins with the current token. -/
theorem nothing {m : Parse α} (hm : m.Silent) (hn : a.nullable = true) (hf : a.first p.current.kind = false) :
    Reads F a p (m p) := by
  obtain ⟨x, q, h, ht⟩ := hm p
  have hc : q.current = p.current := (List.cons.inj ht).1
  rw [h]
  refine .ok (w := []) ht.symm (Pattern.nil_mem hn) fun K v _ hv => ?_
  rcases Pattern.first_of_mem_mul hv with h | ⟨-, h⟩
  · rw [hc, hf] at h
    cases h
  · exact h

theorem silent {m : Parse α} (hm : m.Silent) : Reads F .empty p (m p) := nothing hm rfl rfl

/-- A step that fails where no word begins with the current token. -/
theorem fail {f : Fault} (h : ∀ K ts, F K → p.current :: ts ∉ a.lang * K) :
    Reads F a p (Parse.fail f p : Except Error α × Parser) := by
  obtain ⟨z, hz⟩ := a.exists_word
  exact .error (w := []) rfl rfl hz h

/-! ## Sequences -/

/-- One step after another reads one pattern after another: the second belongs to what follows the first. -/
theorem bind {m : Parse α} {f : α → Parse β} (hm : Reads G a p (m p))
    (hf : ∀ x q w, m p = (.ok x, q) → w ∈ a.lang → p.tokens = w ++ q.tokens → Reads F b q (f x q))
    (hF : ∀ K, F K → G (b.lang * K)) : Reads F (.seq a b) p ((m >>= f) p) := by
  rw [Parse.bind_apply]
  generalize hr : m p = r at hm
  cases hm with
  | @error e q w z ht hspan hw hstuck =>
    obtain ⟨z', hz'⟩ := b.exists_word
    refine .error ht hspan (z := z ++ z') ?_ fun K v hK hv => hstuck _ v (hF K hK) ?_
    · rw [← List.append_assoc]
      exact .seq hw hz'
    · rwa [← mul_assoc, ← Pattern.lang_seq]
  | @ok x q w ht hw hrest =>
    have hs := hf x q w hr hw ht
    -- what goes on from where the second step stopped goes on from where it began
    have split (q' : Parser) (w' v : List Token) (hq : q.tokens = w' ++ q'.tokens) (K : Language Token)
        (hK : F K) (hv : (w ++ w') ++ q'.current :: v ∈ (Pattern.seq a b).lang * K) :
        w' ++ q'.current :: v ∈ b.lang * K := by
      obtain ⟨ts, hts⟩ := Parser.exists_cons hq v
      rw [List.append_assoc, hts, Pattern.lang_seq, mul_assoc] at hv
      rw [hts]
      exact hrest _ ts (hF K hK) hv
    change Reads F (.seq a b) p (f x q)
    generalize f x q = r at hs
    cases hs with
    | @ok y q' w' ht' hw' hrest' =>
      refine .ok (w := w ++ w') (by rw [ht, ht', List.append_assoc]) (.seq hw hw') fun K v hK hv => ?_
      exact hrest' K v hK (split q' w' v ht' K hK hv)
    | @error e q' w' z' ht' hspan' hw' hstuck' =>
      refine .error (w := w ++ w') (z := z') (by rw [ht, ht', List.append_assoc]) hspan' ?_ fun K v hK hv => ?_
      · rw [List.append_assoc]
        exact .seq hw hw'
      · exact hstuck' K v hK (split q' w' v ht' K hK hv)

/-- A sequence from a parser with a bound on its tokens. -/
theorem andThen {m : Parse α} {f : α → Parse β} (hp : p.Ready n) (hm : Reads G a p (m p))
    (hf : ∀ x q, q.Ready n → Reads F b q (f x q)) (hF : ∀ K, F K → G (b.lang * K)) :
    Reads F (.seq a b) p ((m >>= f) p) :=
  hm.bind (fun x q _ _ _ ht => hf x q (hp.after ht)) hF

/-- A sequence whose first step moves on, so that the second has one token less before it. -/
theorem andNext {m : Parse α} {f : α → Parse β} (hp : p.Ready (n + 1)) (hm : Reads G a p (m p))
    (ha : a.nullable = false) (hf : ∀ x q, q.Ready n → Reads F b q (f x q))
    (hF : ∀ K, F K → G (b.lang * K)) : Reads F (.seq a b) p ((m >>= f) p) :=
  hm.bind (fun x q _ _ hw ht => hf x q (hp.next ht (Pattern.ne_nil ha hw))) hF

/-- A step followed by one that stays. -/
theorem andSilent {m : Parse α} {f : α → Parse β} (hm : Reads F a p (m p)) (hf : ∀ x, (f x).Silent) :
    Reads F a p ((m >>= f) p) := by
  refine (hm.bind (b := .empty) (F := F) (fun x q _ _ _ _ => silent (hf x)) fun K hK => ?_).congr ?_
  · rwa [Pattern.lang_empty, one_mul]
  · rw [Pattern.lang_seq, Pattern.lang_empty, mul_one]

/-- A step that stays followed by another step. -/
theorem silentThen {m : Parse α} {f : α → Parse β} (hm : m.Silent)
    (hf : ∀ x q, q.tokens = p.tokens → Reads F a q (f x q)) : Reads F a p ((m >>= f) p) := by
  obtain ⟨x, q, h, ht⟩ := hm p
  rw [Parse.bind_ok h]
  exact (hf x q ht).of_tokens ht.symm

/-! ## Single tokens -/

/-- Moving past the current token reads a pattern of single tokens, if it is one of them. -/
theorem advanceSingle {S : Token → Prop} (ha : ∀ w, w ∈ a.lang ↔ ∃ t : Token, S t ∧ w = [t])
    (hp : p.Ready n) (hs : S p.current) (hne : p.current.kind ≠ .eof) :
    Reads F a p (Parse.advance p) := by
  refine .ok (hp.tokens_advance hne) ((ha _).2 ⟨p.current, hs, rfl⟩) fun K v _ hv => ?_
  obtain ⟨u, hu, v', hv', huv⟩ := Language.mem_mul.1 hv
  obtain ⟨t, -, rfl⟩ := (ha u).1 hu
  cases huv
  exact hv'

theorem advanceOneOf {ks : List TokenKind} (hp : p.Ready n) (hk : p.current.kind ∈ k :: ks)
    (hne : .eof ∉ k :: ks) : Reads F (.oneOf k ks) p (Parse.advance p) :=
  advanceSingle (S := fun t => t.kind ∈ k :: ks) (fun _ => Pattern.mem_oneOf) hp hk fun h => hne (h ▸ hk)

theorem advance (hp : p.Ready n) (hk : p.current.kind = k) (hne : k ≠ .eof) :
    Reads F (.kind k) p (Parse.advance p) :=
  @advanceOneOf F p n k [] hp (List.mem_singleton.2 hk) fun h => hne (List.mem_singleton.1 h).symm

theorem expect (hp : p.Ready n) (hne : k ≠ .eof) : Reads F (.kind k) p (Parse.expect k p) := by
  change Reads F (.kind k) p ((if p.current.kind = k then Parse.advance else Parse.fail _) p)
  split_ifs with hk
  · exact advance hp hk hne
  · exact fail fun K ts _ => Pattern.not_mem_mul (decide_eq_false hk) rfl

theorem expectIdent (hp : p.Ready n) : Reads F (.kind .ident) p (Parse.expectIdent p) := by
  change Reads F (.kind .ident) p
    ((if p.current.kind = .ident then Parse.advance >>= _ else Parse.fail _ : Parse Ident) p)
  split_ifs with hk
  · exact (advance hp hk (by decide)).andSilent fun x q => ⟨_, _, rfl, rfl⟩
  · exact fail fun K ts _ => Pattern.not_mem_mul (decide_eq_false hk) rfl

/-! ## Repetitions -/

section Many

variable {test : TokenKind → Bool} {item : Parse α}

/-- A repetition with more fuel than tokens reads as many items as there are, if the items begin with tokens
that pass the test and what follows begins with none of them. -/
theorem manyUpTo
    (hitem : ∀ p : Parser, p.Ready n → test p.current.kind = true → Reads G a p (item p))
    (hn : a.nullable = false) (hfirst : ∀ k, a.first k = true → test k = true)
    (hF : ∀ K, F K → G ((Pattern.many a).lang * K)) (hfollow : ∀ K, F K → Follow (fun k => !test k) K) :
    ∀ (i : Nat) {p : Parser}, p.Ready n → p.remaining < i →
      Reads F (.many a) p (Parse.manyUpTo test item i p)
  | 0, p, _, hi => absurd hi (Nat.not_lt_zero _)
  | i + 1, p, hp, hi => by
    change Reads F (.many a) p ((if test p.current.kind = true then item >>= _ else pure [] : Parse _) p)
    split_ifs with htest
    · have hseq : Reads F (.seq a (.many a)) p
          ((item >>= fun x => Parse.manyUpTo test item i >>= fun xs => pure (x :: xs)) p) := by
        refine (hitem p hp htest).bind (fun x q w _ hw ht => ?_) hF
        have hfew := (hp.self.next ht (Pattern.ne_nil hn hw)).few
        exact (manyUpTo hitem hn hfirst hF hfollow i (hp.after ht) (by omega)).andSilent
          fun xs q => ⟨_, _, rfl, rfl⟩
      refine hseq.narrow (fun w hw => ?_) (fun _ hK => hK) fun K ts hK hv => ?_
      · obtain ⟨u, hu, v, hv, rfl⟩ := Language.mem_mul.1 (by rwa [Pattern.lang_seq] at hw)
        exact .manyCons hu hv
      · rw [Pattern.lang_many, add_mul, one_mul, Language.mem_add, ← Pattern.lang_seq] at hv
        exact hv.resolve_left ((hfollow K hK).not_mem (by rw [htest]; rfl))
    · have hnot : a.first p.current.kind = false := by
        by_contra h
        exact htest (hfirst _ (by rwa [Bool.not_eq_false] at h))
      exact nothing (fun q => ⟨_, _, rfl, rfl⟩) rfl hnot

theorem many
    (hitem : ∀ p : Parser, p.Ready n → test p.current.kind = true → Reads G a p (item p))
    (hn : a.nullable = false) (hfirst : ∀ k, a.first k = true → test k = true)
    (hF : ∀ K, F K → G ((Pattern.many a).lang * K)) (hfollow : ∀ K, F K → Follow (fun k => !test k) K)
    (hp : p.Ready n) : Reads F (.many a) p (Parse.many test item p) :=
  manyUpTo hitem hn hfirst hF hfollow _ hp (Nat.lt_succ_self _)

/-- A repetition with more fuel than tokens ends at a token that fails the test. -/
theorem manyUpTo_stops (hitem : ∀ p : Parser, p.Ready n → test p.current.kind = true → Reads G a p (item p))
    (hn : a.nullable = false) :
    ∀ (i : Nat) {p q : Parser} {xs : List α}, p.Ready n → p.remaining < i →
      Parse.manyUpTo test item i p = (.ok xs, q) → test q.current.kind = false
  | 0, p, q, xs, _, hi, _ => absurd hi (Nat.not_lt_zero _)
  | i + 1, p, q, xs, hp, hi, h => by
    change ((if test p.current.kind = true then item >>= _ else pure [] : Parse _) p) = _ at h
    split_ifs at h with htest
    · obtain ⟨x, q₁, h₁, h₂⟩ := Parse.of_bind_ok h
      obtain ⟨ys, q₂, h₂, h₃⟩ := Parse.of_bind_ok h₂
      cases h₃
      have hr := hitem p hp htest
      rw [h₁] at hr
      cases hr with
      | @ok _ _ w ht hw _ =>
        have hfew := (hp.self.next ht (Pattern.ne_nil hn hw)).few
        exact manyUpTo_stops hitem hn i (hp.after ht) (by omega) h₂
    · cases h
      exact Bool.eq_false_iff.2 htest

end Many

/-- Items with commas between them, where nothing that follows begins with a comma. -/
theorem commaList {item : Parse α} (hitem : ∀ p : Parser, p.Ready n → Reads G a p (item p))
    (hF : ∀ K, F K → G ((Pattern.many (.seq (.kind .comma) a)).lang * K))
    (hfollow : ∀ K, F K → Follow (· ≠ .comma) K) (hp : p.Ready n) :
    Reads F (.list (.kind .comma) a) p (Parse.commaList item p) := by
  have hnext (q : Parser) (hq : q.Ready n) (hk : decide (q.current.kind = .comma) = true) :
      Reads (fun K => G K) (.seq (.kind .comma) a) q ((Parse.advance >>= fun _ => item) q) :=
    (advance (F := fun _ => True) hq (of_decide_eq_true hk) (by decide)).andThen hq
      (fun _ q' hq' => hitem q' hq') fun _ _ => trivial
  refine (hitem p hp).andThen hp (fun x q hq => ?_) hF
  refine andSilent (many hnext rfl ?_ (fun K hK => hF K hK) (fun K hK => ?_) hq)
    fun xs q => ⟨_, _, rfl, rfl⟩
  · intro k hk
    simpa [Pattern.first, Pattern.nullable] using hk
  · exact (hfollow K hK).mono fun k hk => by simpa using hk

/-- Items in parentheses, which neither are empty nor begin with the closing parenthesis. -/
theorem parenthesised {item : Parse α} {S : TokenKind → Bool}
    (hitem : ∀ p : Parser, p.Ready n → Reads (Follow S) a p (item p)) (hn : a.nullable = false)
    (hfirst : a.first .rParen = false) (hS : S .comma = true ∧ S .rParen = true) (hp : p.Ready n) :
    Reads F (.parenthesised a) p (Parse.parenthesised item p) := by
  refine (expect (F := fun _ => True) hp (by decide)).andThen hp (fun _ q hq => ?_) fun _ _ => trivial
  change Reads F _ q ((if q.current.kind = .rParen then
    pure [] >>= fun as => Parse.expect .rParen >>= fun _ => pure as
    else Parse.commaList item >>= fun as => Parse.expect .rParen >>= fun _ => pure as) q)
  rw [Parse.ite_bind]
  have hopt : Reads (Follow (· = .rParen)) (.opt (.list (.kind .comma) a)) q
      ((if q.current.kind = .rParen then pure [] else Parse.commaList item : Parse (List α)) q) := by
    split_ifs with hk
    · refine nothing (fun r => ⟨_, _, rfl, rfl⟩) (Bool.or_true _) ?_
      simp [Pattern.opt, Pattern.list, Pattern.first, hk, hfirst, hn]
    · refine opt (commaList hitem (fun K hK => ?_) (fun K hK => ?_) hq) fun K ts hK => ?_
      · refine Follow.mul (fun k h => ?_) fun _ => hK.mono fun k h => ?_
        · have hc : k = .comma := by simpa [Pattern.first, Pattern.nullable] using h
          rw [hc, hS.1]
        · rw [of_decide_eq_true h, hS.2]
      · exact hK.mono fun k h => by rw [of_decide_eq_true h]; rfl
      · exact hK.not_mem (decide_eq_false hk)
  refine hopt.andThen hq (fun as r hr => ?_) fun K _ => Follow.nonempty (fun k h => h) rfl
  exact (expect hr (by decide)).andSilent fun _ _ => ⟨_, _, rfl, rfl⟩

end Reads

end VCLang
