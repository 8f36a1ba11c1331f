/-
The parser recognises exactly the sentences of the grammar, and an error of the parse stands at the first
token with which no sentence goes on.

What is added to the reading of programs is what the tokens of a text are like: the end mark is the last
one and no other, integer literals are numerals, and no two tokens stand at one place, so that the place of
an error tells its token.
-/
import VCLang.Proofs.Grammar.Statement
import VCLang.Proofs.Token.Form
namespace VCLang

/-! ## Integer literals -/

/-- An integer literal is a numeral. -/
theorem munch_numeral {cs : List Char} (h : (munch cs).1 = .intLiteral) :
    cs.take (munch cs).2 ≠ [] ∧ (cs.take (munch cs).2).all Char.isDigit = true := by
  have hne : cs ≠ [] := by
    rintro rfl
    cases h
  have hform := form_munch hne (by rw [h]; decide)
  rw [h] at hform
  exact ⟨hform.numeral.1, List.all_eq_true.2 hform.numeral.2⟩

/-- An integer literal of a text is a numeral. -/
theorem Scanner.next_numeral (s : Scanner) (h : s.next.1.token.kind = .intLiteral) :
    s.next.1.token.spelling.toList ≠ [] ∧ s.next.1.token.spelling.toList.all Char.isDigit = true := by
  revert h
  simp only [next]
  unfold readToken
  split
  · intro h
    cases h
  · intro h
    cases h
  · intro h
    rw [String.toList_ofList]
    exact munch_numeral h

theorem lexemes_numerals (source : String) : ∀ l ∈ lexemes source, l.token.kind = .intLiteral →
    l.token.spelling.toList ≠ [] ∧ l.token.spelling.toList.all Char.isDigit = true :=
  Scanner.forall_lexemesUpTo (P := fun l => l.token.kind = .intLiteral →
    l.token.spelling.toList ≠ [] ∧ l.token.spelling.toList.all Char.isDigit = true) Scanner.next_numeral _ _

/-! ## Places -/

/-- Tokens begin at or behind the offset that they are cut from. -/
theorem Cut.start_of_mem {text : List Char} {a : Nat} {ts : List Token} (h : Cut text (placeAt text) a ts) :
    ∀ t ∈ ts, ∃ b, a ≤ b ∧ b ≤ text.length ∧ t.span.start = placeAt text b := by
  induction h with
  | @last a ha _ =>
    intro t ht
    rw [List.mem_singleton.1 ht]
    exact ⟨text.length, ha, le_rfl, rfl⟩
  | @next a b e t ts hab hbe he _ _ hspan _ _ ih =>
    intro u hu
    rcases List.mem_cons.1 hu with rfl | hu
    · exact ⟨b, hab, by omega, by rw [hspan]⟩
    · obtain ⟨c, hec, hc, hstart⟩ := ih u hu
      exact ⟨c, by omega, hc, hstart⟩

/-- Of two tokens of a text, one begins before the other. -/
theorem Cut.pairwise_start {text : List Char} {a : Nat} {ts : List Token} (h : Cut text (placeAt text) a ts) :
    ts.Pairwise fun t u => t.span.start.Before u.span.start := by
  induction h with
  | last => exact List.pairwise_singleton _ _
  | @next a b e t ts _ hbe _ _ _ hspan _ hcut ih =>
    refine List.pairwise_cons.2 ⟨fun u hu => ?_, ih⟩
    obtain ⟨c, hec, hc, hstart⟩ := hcut.start_of_mem u hu
    have hstart' : t.span.start = placeAt text b := by rw [hspan]
    rw [hstart, hstart']
    exact placeAt_before (by omega) hc

/-- The span of a token tells its index. -/
theorem Cut.index_unique {text : List Char} {a : Nat} {ts : List Token} (h : Cut text (placeAt text) a ts) {i j : Nat}
    (hi : i < ts.length) (hj : j < ts.length) (hspan : ts[i].span = ts[j].span) : i = j := by
  have hlt {i j : Nat} (hi : i < ts.length) (hj : j < ts.length) (hij : i < j) : ts[i].span ≠ ts[j].span := by
    intro heq
    have hb := List.pairwise_iff_getElem.1 h.pairwise_start i j hi hj hij
    rw [heq] at hb
    exact hb.ne rfl
  rcases Nat.lt_trichotomy i j with hij | hij | hij
  · exact absurd hspan (hlt hi hj hij)
  · exact hij
  · exact absurd hspan.symm (hlt hj hi hij)

/-! ## Recognition -/

/-- A span is that of one token of a list and of no other; the tokens before it begin a sentence, and with it
they begin none. -/
def FirstImpossible (ts : List Token) (span : Span) : Prop :=
  ∃ k, ∃ hk : k < ts.length, ts[k].span = span ∧ (∀ j, ∀ hj : j < ts.length, ts[j].span = span → j = k) ∧
    Viable (ts.take k) ∧ ¬ Viable (ts.take (k + 1))

/-- A parser at the first token of a text has all its tokens before it. -/
theorem tokens_ofString (source : String) : (Parser.ofString source).tokens = (tokenize source).1 := by
  obtain ⟨front, hfront, -⟩ := (lexemes_cut source).eof_last
  unfold Parser.ofString
  have htokens : (tokenize source).1 = (lexemes source).map Lexeme.token := rfl
  rcases hl : lexemes source with _ | ⟨l, ls⟩
  · rw [htokens, hl, List.map_nil] at hfront
    exact absurd (congrArg List.length hfront) (by simp)
  · rw [htokens, hl]
    rfl

theorem ready_ofString (source : String) :
    (Parser.ofString source).Ready ((Parser.ofString source).remaining + 1) := by
  refine ⟨Nat.lt_succ_self _, fun front t ts h => ?_, fun t h => ?_⟩
  · obtain ⟨all, hall, hne⟩ := (lexemes_cut source).eof_last
    rw [tokens_ofString, hall] at h
    constructor
    · intro hk
      rcases List.eq_nil_or_concat ts with rfl | ⟨ts', u, rfl⟩
      · rfl
      · -- an end mark with tokens behind it would be one of the other tokens
        rw [List.concat_eq_append, ← List.cons_append, ← List.append_assoc] at h
        have hfront := (List.append_inj' h rfl).1
        refine absurd hk (hne t ?_)
        rw [hfront]
        exact List.mem_append_right front List.mem_cons_self
    · rintro rfl
      have hlast := (List.append_inj' h rfl).2
      rw [← (List.cons.inj hlast).1]
  · rw [tokens_ofString] at h
    obtain ⟨l, hl, rfl⟩ := List.mem_map.1 h
    exact lexemes_numerals source l hl

/-- The parser accepts a text if and only if its tokens form a sentence, and otherwise reports the first
token with which no sentence goes on. -/
theorem parse_recognises (source : String) :
    ((∃ program, (parse source).result = .ok program) ↔ Sentence (tokenize source).1) ∧
      ∀ e, (parse source).result = .error e → FirstImpossible (tokenize source).1 e.span := by
  have hp := ready_ofString source
  have hreads := Reads.program hp
  have hstops (program : Program) (q : Parser) := @Reads.program_stops _ _ q program hp
  have hcut := lexemes_cut source
  change ((∃ program, (Grammar.program .standard (Parser.ofString source)).1 = .ok program) ↔ _) ∧
    ∀ e, (Grammar.program .standard (Parser.ofString source)).1 = .error e → _
  rw [← tokens_ofString] at hcut ⊢
  generalize Grammar.program .standard (Parser.ofString source) = r at hreads hstops ⊢
  cases hreads with
  | @ok program q w ht hw _ =>
    have heof := hstops program q rfl
    have hlast := ((hp.after ht).eof_iff).1 heof
    refine ⟨⟨fun _ => ?_, fun _ => ⟨program, rfl⟩⟩, fun e h => by cases h⟩
    rw [ht, Parser.tokens, hlast]
    exact .rule (.seq hw (Pattern.mem_kind.2 ⟨q.current, heof, rfl⟩))
  | @error e q w z ht hspan hw hstuck =>
    have hstuck (z : List Token) : ¬ Sentence (w ++ q.current :: z) := fun h => by
      refine hstuck (Pattern.kind .eof).lang z (fun t ts ht => ?_) ?_
      · exact Pattern.first_of_derives ht t ts rfl
      · rw [← Pattern.lang_seq]
        exact Pattern.lang_rule .program ▸ h
    have hviable : Viable w := by
      let last : Token := ⟨.eof, "$", e.span⟩
      refine ⟨z ++ [last], .rule ?_⟩
      rw [← List.append_assoc]
      exact .seq hw (Pattern.mem_kind.2 ⟨last, rfl, rfl⟩)
    rw [ht] at hcut ⊢
    have hk : w.length < (w ++ q.tokens).length := by simp [Parser.tokens]
    have hget : (w ++ q.tokens)[w.length].span = e.span := by simp [Parser.tokens, hspan]
    have hnone : ¬ ∃ ast, (Except.error e : Except Error Program) = .ok ast := by
      rintro ⟨_, ⟨⟩⟩
    refine ⟨⟨fun h => absurd h hnone, fun h => absurd h (hstuck _)⟩, fun e' h => ?_⟩
    cases h
    refine ⟨w.length, hk, hget, fun j hj h => hcut.index_unique hj hk (h.trans hget.symm), ?_, ?_⟩
    · rwa [List.take_left]
    · rintro ⟨z', hz'⟩
      refine hstuck z' ?_
      rwa [List.take_length_add_append, Parser.tokens, List.take_succ_cons, List.take_zero, List.append_assoc,
        List.singleton_append] at hz'

end VCLang
