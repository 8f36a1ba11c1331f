/-
What is reported while a text is cut, token by token. An illegal character is reported at its token; a string with its
stray backslashes, in order, and then with the quote that it lacks, if it lacks one; no other token with anything; and
behind them all one comment, if one stays open, after which a scanner gives nothing but the end mark.
-/
import Mathlib.Logic.Function.Iterate
import VCLang.Proofs.Token.Escapes
import VCLang.Proofs.Token.Faults
import VCLang.Proofs.Token.Walk
namespace VCLang

/-- What is wrong with a token that stands between two offsets of a text. -/
def Token.faults (text : List Char) (b e : Nat) (t : Token) : List Error :=
  match t.kind with
  | .error => [⟨.illegalCharacter t.spelling, t.span⟩]
  | .stringLiteral => strays text (b + 1) e ++
      if b + 1 < e ∧ ClosesAt text (e - 1) then [] else [⟨.unterminatedString t.spelling, t.span⟩]
  | _ => []

/-- A comment that stays open to the end of a text: it opens behind a gap that begins at an offset. -/
structure Unclosed (text : List Char) (a o : Nat) : Prop where
  le : a ≤ o
  gap : Filler false (text.extract a o)
  opens : ∃ body, text.drop o = '/' :: '*' :: body ∧ ¬ ['*', '/'] <:+: body

/-- The tokens of a text from an offset on, with what is reported about them. -/
inductive TokensReported (text : List Char) : Nat → List Token → List Error → Prop
  /-- The end mark. -/
  | last {a : Nat} {t : Token} : t.kind = .eof → (∀ o, ¬ Unclosed text a o) → TokensReported text a [t] []
  /-- The end mark, behind a comment that stays open. -/
  | unclosed {a o : Nat} {t : Token} : t.kind = .eof → Unclosed text a o →
    TokensReported text a [t] [⟨.unterminatedComment, spanAt text o (o + 2)⟩]
  /-- A gap from `a` to `b` and a token from `b` to `e`. -/
  | next {a b e : Nat} {t : Token} {ts : List Token} {es : List Error} : a ≤ b → b < e → e ≤ text.length →
    Filler false (text.extract a b) → t.kind ≠ .eof → t.span = spanAt text b e → TokensReported text e ts es →
    TokensReported text a (t :: ts) (t.faults text b e ++ es)

variable {text : List Char} {a b e o : Nat}

/-! ## Gaps -/

/-- An open comment is reported at its two first characters. -/
theorem Unclosed.span (h : Unclosed text a o) :
    openComment (placeAt text o) = ⟨.unterminatedComment, spanAt text o (o + 2)⟩ := by
  obtain ⟨body, hbody, -⟩ := h.opens
  rw [openComment, spanAt, placeAt_succ (drop_succ_of_drop hbody), placeAt_succ hbody]
  rfl

/-- A comment that stays open, by its place and by its offset. -/
theorem leftOpen_iff {p : Position} :
    LeftOpen .between (placeAt text a) (text.drop a) p ↔ ∃ o, Unclosed text a o ∧ p = placeAt text o := by
  constructor
  · intro h
    generalize hplace : placeAt text a = q at h
    generalize hrest : text.drop a = cs at h
    cases h with
    | @behind _ _ gap body hgap hbody =>
      have hread : (text.drop a).take gap.length = gap := by rw [hrest, List.take_left]
      refine ⟨a + gap.length, ⟨Nat.le_add_right .., ?_, body, ?_, hbody⟩, ?_⟩
      · rw [Scanner.extract_add, hread]
        exact hgap
      · rw [← List.drop_drop, hrest, List.drop_left]
      · rw [placeAt_add, hread, hplace]
  · rintro ⟨o, ⟨hle, hgap, body, hbody, hopen⟩, rfl⟩
    obtain ⟨n, rfl⟩ := Nat.exists_eq_add_of_le hle
    rw [Scanner.extract_add] at hgap
    have hrest : text.drop a = (text.drop a).take n ++ '/' :: '*' :: body := by
      rw [← hbody, ← List.drop_drop, List.take_append_drop]
    rw [placeAt_add]
    generalize (text.drop a).take n = gap at hgap hrest ⊢
    rw [hrest]
    exact .behind hgap hopen

/-- What is reported about a gap is the comment that stays open. -/
theorem skipGap_reported (text : List Char) (a : Nat) :
    ((skipGap .between (placeAt text a) (text.drop a)).errors = [] ∧ ∀ o, ¬ Unclosed text a o) ∨
    ∃ o, Unclosed text a o ∧ (skipGap .between (placeAt text a) (text.drop a)).rest = [] ∧
      (skipGap .between (placeAt text a) (text.drop a)).errors = [⟨.unterminatedComment, spanAt text o (o + 2)⟩] := by
  rcases skipGap_errors .between (placeAt text a) (text.drop a) with hnone | ⟨p, hp, -⟩
  · refine .inl ⟨hnone, fun o ho => ?_⟩
    rw [(leftOpen_iff.2 ⟨o, ho, rfl⟩).skipGap_eq] at hnone
    cases hnone
  · obtain ⟨o, ho, rfl⟩ := leftOpen_iff.1 hp
    refine .inr ⟨o, ho, ?_⟩
    rw [hp.skipGap_eq]
    exact ⟨rfl, congrArg (fun e => [e]) ho.span⟩

/-! ## Tokens -/

namespace Token

variable {t : Token}

theorem faults_of_error (h : t.kind = .error) : t.faults text b e = [⟨.illegalCharacter t.spelling, t.span⟩] := by
  rw [faults, h]

theorem faults_of_ne (herror : t.kind ≠ .error) (hstring : t.kind ≠ .stringLiteral) : t.faults text b e = [] := by
  unfold faults
  split
  · exact absurd ‹_› herror
  · exact absurd ‹_› hstring
  · rfl

end Token

namespace Scanner

theorem atOffset_injective (hb : b ≤ text.length) (he : e ≤ text.length) (h : atOffset text b = atOffset text e) :
    b = e := by
  have hlength := congrArg (fun s : Scanner => s.rest.length) h
  simp only [atOffset, List.length_drop] at hlength
  omega

/-- A string, by the offsets that it stands between. -/
theorem readQuoted_atOffset {cs : List Char} (h : text.drop b = '"' :: cs) :
    ∃ q, q = Quoted.scan (placeAt text (b + 1)) cs ∧ q.Finds text (b + 1) ∧
    (atOffset text b).readQuoted.2 = atOffset text (b + 1 + q.taken) ∧
    (atOffset text b).readQuoted.1.token = ⟨.stringLiteral, String.ofList q.text, spanAt text b (b + 1 + q.taken)⟩ ∧
    (atOffset text b).readQuoted.1.errors = q.errors ++ if q.closed then [] else
      [⟨.unterminatedString (String.ofList q.text), spanAt text b (b + 1 + q.taken)⟩] := by
  have hrest : (atOffset text (b + 1)).rest = cs := drop_succ_of_drop h
  refine ⟨_, rfl, scan_finds _ cs (b + 1) hrest rfl fun c _ _ hescaped => ?_, ?_⟩
  · exact absurd ((isEscaped_succ h).1 hescaped).1 (by decide)
  simp only [readQuoted, skip_atOffset, hrest, ← Nat.add_assoc, Nat.add_right_comm b _ 1]
  exact ⟨rfl, rfl, rfl⟩

/-- What is reported about a token is what is wrong with it. -/
theorem readToken_faults (hb : b < text.length) (he : e ≤ text.length)
    (h : (readToken (atOffset text b)).2 = atOffset text e) :
    (readToken (atOffset text b)).1.errors = (readToken (atOffset text b)).1.token.faults text b e := by
  have hne : text.drop b ≠ [] := by
    rw [Ne, List.drop_eq_nil_iff]
    omega
  rcases (atOffset text b).readToken_cases with ⟨hnil, -⟩ | ⟨cs, hquote, hread⟩ | ⟨-, -, hread⟩
  · exact absurd hnil hne
  · have hdrop : text.drop b = '"' :: cs := hquote
    have hcs := drop_succ_of_drop hdrop
    have htaken := Quoted.scan_taken_le (placeAt text (b + 1)) cs
    obtain ⟨q, hq, hfinds, hrest, htoken, herrors⟩ := readQuoted_atOffset hdrop
    rw [← hq, ← hcs, List.length_drop] at htaken
    rw [hread, hrest] at h
    obtain rfl : b + 1 + q.taken = e := atOffset_injective (by omega) he h
    have hclosed : q.closed = true ↔ b + 1 < b + 1 + q.taken ∧ ClosesAt text (b + 1 + q.taken - 1) := by
      rw [hfinds.closed]
      constructor
      · rintro ⟨n, hn, hcloses⟩
        rw [hn]
        exact ⟨by omega, hcloses⟩
      · rintro ⟨hpos, hcloses⟩
        refine ⟨q.taken - 1, by omega, ?_⟩
        rwa [Nat.add_sub_assoc (by omega)] at hcloses
    rw [hread, herrors, htoken, hfinds.errors]
    simp only [Token.faults, hclosed]
  · rw [hread]
    by_cases herror : (munch (text.drop b)).1 = .error
    · exact (if_pos herror).trans (Token.faults_of_error herror).symm
    · exact (if_neg herror).trans (Token.faults_of_ne herror (munch_kind hne).1).symm

/-- A gap leads from one offset to another, where a comment stays open only if the text ends there. -/
theorem behindGap_atOffset (ha : a ≤ text.length) : ∃ b, a ≤ b ∧ b ≤ text.length ∧
    (atOffset text a).behindGap = atOffset text b ∧ Filler (text.drop b).isEmpty (text.extract a b) := by
  obtain ⟨b, hab, hb, hrest, hpos, hgap⟩ := skipGap_atOffset ha
  refine ⟨b, hab, hb, ?_, hgap⟩
  show Scanner.mk (skipGap .between (placeAt text a) (text.drop a)).rest _ = _
  rw [hrest]
  exact congrArg _ hpos

/-- One step from an offset: the end mark with what is reported about the gap in front of it, or a token with what is
wrong with it. -/
theorem next_reported (ha : a ≤ text.length) :
    ((atOffset text a).next.1.token.kind = .eof ∧
      TokensReported text a [(atOffset text a).next.1.token] (atOffset text a).next.1.errors) ∨
    ∃ b e, a ≤ b ∧ b < e ∧ e ≤ text.length ∧ Filler false (text.extract a b) ∧
      (atOffset text a).next.1.token.kind ≠ .eof ∧ (atOffset text a).next.1.token.span = spanAt text b e ∧
      (atOffset text a).next.2 = atOffset text e ∧
      (atOffset text a).next.1.errors = (atOffset text a).next.1.token.faults text b e := by
  obtain ⟨b, hab, hb, hbehind, hgap⟩ := behindGap_atOffset ha
  have hreported := skipGap_reported text a
  rcases Nat.lt_or_eq_of_le hb with hlt | rfl
  · have hne : text.drop b ≠ [] := by
      rw [Ne, List.drop_eq_nil_iff]
      omega
    have herrors : (skipGap .between (placeAt text a) (text.drop a)).errors = [] := by
      rcases hreported with ⟨herrors, -⟩ | ⟨o, -, hrest, -⟩
      · exact herrors
      · exact absurd ((congrArg Scanner.rest hbehind).symm.trans hrest) hne
    obtain ⟨e, hbe, he, hrest, hkind, hspan, -⟩ := readToken_atOffset hlt
    rw [List.isEmpty_eq_false_iff.2 hne] at hgap
    refine .inr ⟨b, e, hab, hbe, he, hgap, ?_⟩
    rw [next_eq, hbehind]
    refine ⟨hkind, hspan, hrest, ?_⟩
    rw [← readToken_faults hlt he hrest]
    exact congrArg (· ++ _) herrors
  · have hrest : (atOffset text a).behindGap.rest = [] := by
      rw [hbehind]
      exact List.drop_length
    rw [next_of_nil hrest]
    refine .inl ⟨rfl, ?_⟩
    rcases hreported with ⟨herrors, hclosed⟩ | ⟨o, ho, -, herrors⟩
    · show TokensReported text a _ (skipGap .between (placeAt text a) (text.drop a)).errors
      rw [herrors]
      exact .last rfl hclosed
    · show TokensReported text a _ (skipGap .between (placeAt text a) (text.drop a)).errors
      rw [herrors]
      exact .unclosed rfl ho

/-- A walk from an offset reports what is wrong with its tokens. -/
theorem lexemes_reported (s : Scanner) : ∀ a ≤ text.length, s = atOffset text a →
    TokensReported text a (s.lexemes.map Lexeme.token) (s.lexemes.flatMap Lexeme.errors) := by
  induction s using walk_induction with
  | eof s heof =>
    rintro a ha rfl
    rw [lexemes_of_eof heof, List.map_singleton, List.flatMap_singleton]
    rcases next_reported ha with ⟨-, h⟩ | ⟨b, e, -, -, -, -, hkind, -⟩
    · exact h
    · exact absurd heof hkind
  | token s heof ih =>
    rintro a ha rfl
    rcases next_reported ha with ⟨hkind, -⟩ | ⟨b, e, hab, hbe, he, hgap, hkind, hspan, hrest, herrors⟩
    · exact absurd hkind heof
    · rw [lexemes_of_not_eof heof, List.map_cons, List.flatMap_cons, herrors]
      exact .next hab hbe he hgap hkind hspan (ih e he hrest)

/-- At the end of a text a scanner stays. -/
theorem iterate_next_at_end (p : Position) (n : Nat) : (fun s : Scanner => s.next.2)^[n] ⟨[], p⟩ = ⟨[], p⟩ := by
  induction n with
  | zero => rfl
  | succ n ih => exact ih

/-- Behind a comment that stays open a scanner gives the end mark and nothing else, however often it is asked. -/
theorem next_of_unterminatedComment {s : Scanner} (h : ∃ e ∈ s.next.1.errors, e.fault = .unterminatedComment) :
    s.next.1.token.kind = .eof ∧ ∀ n, ((fun s : Scanner => s.next.2)^[n] s.next.2).next.1 = ⟨s.next.1.token, []⟩ := by
  obtain ⟨e, he, hfault⟩ := h
  have hrest : s.behindGap.rest = [] := by
    rcases List.mem_append.1 he with he | he
    · exact skipGap_rest_of_mem he
    · exact absurd hfault (readToken_fault _ e he)
  rw [next_of_nil hrest]
  refine ⟨rfl, fun n => ?_⟩
  rw [iterate_next_at_end]
  rfl

end Scanner

/-- Reports follow the tokens. They are, in order, for each token what is wrong with it: an illegal character; the stray
backslashes of a string, each quoted with the character behind it, and then the string, if no quote closes it; nothing
for any other token. Behind them stands one comment, just if one stays open, and from a scanner that has reported it
come end marks alone. -/
theorem tokenize_reported (source : String) :
    TokensReported source.toList 0 (tokenize source).1 (tokenize source).2 ∧
      ∀ s : Scanner, (∃ e ∈ s.next.1.errors, e.fault = .unterminatedComment) → s.next.1.token.kind = .eof ∧
        ∀ n, ((fun s : Scanner => s.next.2)^[n] s.next.2).next.1 = ⟨s.next.1.token, []⟩ :=
  ⟨Scanner.lexemes_reported _ 0 (Nat.zero_le _) rfl, fun _ => Scanner.next_of_unterminatedComment⟩

/-- Escapes that shift which backslash is stray and which quote closes, an illegal character and an open comment. -/
theorem tokenize_reported_escapes :
    TokensReported "\"\\\\\\\"\\q\n& /*".toList 0
      [⟨.stringLiteral, "\\\"\\q", ⟨⟨1, 1⟩, ⟨1, 8⟩⟩⟩, ⟨.error, "&", ⟨⟨2, 1⟩, ⟨2, 2⟩⟩⟩, .eofAt ⟨2, 5⟩]
      [⟨.illegalEscape "\\q", ⟨⟨1, 6⟩, ⟨1, 8⟩⟩⟩, ⟨.unterminatedString "\\\"\\q", ⟨⟨1, 1⟩, ⟨1, 8⟩⟩⟩,
        ⟨.illegalCharacter "&", ⟨⟨2, 1⟩, ⟨2, 2⟩⟩⟩, ⟨.unterminatedComment, ⟨⟨2, 3⟩, ⟨2, 5⟩⟩⟩] ∧
    (Scanner.next ⟨" /*".toList, ⟨2, 2⟩⟩).1 = ⟨.eofAt ⟨2, 5⟩, [⟨.unterminatedComment, ⟨⟨2, 3⟩, ⟨2, 5⟩⟩⟩]⟩ ∧
    ∀ n, ((fun s : Scanner => s.next.2)^[n] (Scanner.next ⟨" /*".toList, ⟨2, 2⟩⟩).2).next.1 = ⟨.eofAt ⟨2, 5⟩, []⟩ := by
  obtain ⟨hreported, hopen⟩ := tokenize_reported "\"\\\\\\\"\\q\n& /*"
  have hnext : (Scanner.next ⟨" /*".toList, ⟨2, 2⟩⟩).1 =
      ⟨.eofAt ⟨2, 5⟩, [⟨.unterminatedComment, ⟨⟨2, 3⟩, ⟨2, 5⟩⟩⟩]⟩ := by decide
  have hend := hopen ⟨" /*".toList, ⟨2, 2⟩⟩ ⟨_, by rw [hnext]; exact List.mem_singleton_self _, rfl⟩
  rw [hnext] at hend
  exact ⟨hreported, hnext, hend.2⟩

end VCLang
