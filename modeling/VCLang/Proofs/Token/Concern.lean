/-
The text that a fault of the characters is about, and the span that it is reported at. The span begins where that text
does and ends behind it, with one exception: an illegal escape is given two columns, and where its second character is
a tab, which reaches to the next tab stop, the text ends further right unless the stop is in the second column.
-/
import VCLang.Proofs.Token.Longest
import VCLang.Proofs.Token.Reported
namespace VCLang

/-- The text that a fault is about, between two offsets. -/
inductive Fault.IsAbout (text : List Char) : Fault → Nat → Nat → Prop
  /-- A character that begins no token. -/
  | illegalCharacter {c : Char} {cs : List Char} {i : Nat} : text.drop i = c :: cs → c ≠ '"' →
    (munch (c :: cs)).1 = .error → IsAbout text (.illegalCharacter (String.ofList [c])) i (i + 1)
  /-- A stray backslash and the character behind it. -/
  | illegalEscape {c : Char} {cs : List Char} {i : Nat} : text.drop i = '\\' :: c :: cs → ¬ IsEscaped text i →
    unescape? c = none → c ≠ '\n' → IsAbout text (.illegalEscape (String.ofList ['\\', c])) i (i + 2)
  /-- A string from its opening quote to the end of its line or of the text. -/
  | unterminatedString {body content rest : List Char} {i : Nat} : text.drop i = '"' :: (body ++ rest) →
    QuotedText false body content → (∀ c ∈ rest.head?, c = '\n') →
    IsAbout text (.unterminatedString (String.ofList content)) i (i + 1 + body.length)
  /-- The opening of a comment that stays open. -/
  | unterminatedComment {body : List Char} {i : Nat} : text.drop i = '/' :: '*' :: body → ¬ ['*', '/'] <:+: body →
    IsAbout text .unterminatedComment i (i + 2)

/-- A fault of the characters is reported where the text that it is about begins, and to where that text ends, but that
an escape with a tab is given two columns. These are its columns just if the tab is one column wide. -/
structure Error.Covers (text : List Char) (e : Error) (i j : Nat) : Prop where
  isAbout : e.fault.IsAbout text i j
  start : e.span.start = placeAt text i
  stop : e.span.stop = if e.fault = .illegalEscape "\\\t" then (placeAt text i).right 2 else placeAt text j
  exact : e.span = spanAt text i j ↔ (e.fault = .illegalEscape "\\\t" → (placeAt text i).column % 8 = 7)

variable {text : List Char} {a i j : Nat}

/-- Any other fault is reported at the span of its text. -/
theorem Error.Covers.of_span {f : Fault} (h : f.IsAbout text i j) (htab : f ≠ .illegalEscape "\\\t") :
    Covers text ⟨f, spanAt text i j⟩ i j where
  isAbout := h
  start := rfl
  stop := (if_neg htab).symm
  exact := iff_of_true rfl fun h => absurd h htab

/-- Two columns are what an escape takes, if its second character is not a tab. -/
theorem placeAt_add_two {c : Char} {cs : List Char} (h : text.drop i = '\\' :: c :: cs) (hline : c ≠ '\n') :
    placeAt text (i + 2) = if c = '\t' then ⟨(placeAt text i).line, Position.tabStop ((placeAt text i).column + 1)⟩
      else (placeAt text i).right 2 := by
  rw [placeAt_succ (drop_succ_of_drop h), placeAt_succ h, Position.advance, if_neg hline]
  rfl

/-- A stray backslash is reported from where it stands, over two columns. -/
theorem strayAt?_covers {e : Error} (h : strayAt? text i = some e) : e.Covers text i (i + 2) := by
  unfold strayAt? at h
  split at h
  · rename_i c cs hdrop
    split_ifs at h with hstray
    obtain ⟨hfree, hnone, hline⟩ := hstray
    cases h
    have hstop := placeAt_add_two hdrop hline
    have htab : Fault.illegalEscape (String.ofList ['\\', c]) = .illegalEscape "\\\t" ↔ c = '\t' := by
      constructor
      · intro h
        have hlist := congrArg String.toList (Fault.illegalEscape.inj h)
        rw [String.toList_ofList] at hlist
        exact List.head_eq_of_cons_eq (List.tail_eq_of_cons_eq hlist)
      · rintro rfl
        rfl
    refine ⟨.illegalEscape hdrop hfree hnone hline, rfl, ?_, ?_⟩
    · simp only [htab]
      rw [hstop]
      split_ifs <;> rfl
    · simp only [htab, spanAt, Span.mk.injEq, true_and]
      rw [hstop]
      by_cases hc : c = '\t'
      · simp only [hc, if_true, true_implies, Position.right, Position.tabStop, Position.mk.injEq, true_and]
        have hpos : 0 < (placeAt text i).column := Nat.lt_of_lt_of_le Nat.zero_lt_one (Nat.le_add_right ..)
        omega
      · simp only [hc, if_false, false_implies]
  · cases h

theorem strays_covers {b e : Nat} {x : Error} (h : x ∈ strays text b e) : ∃ i, x.Covers text i (i + 2) := by
  obtain ⟨i, -, hi⟩ := List.mem_filterMap.1 h
  exact ⟨i, strayAt?_covers hi⟩

theorem Unclosed.covers {o : Nat} (h : Unclosed text a o) :
    Error.Covers text ⟨.unterminatedComment, spanAt text o (o + 2)⟩ o (o + 2) := by
  obtain ⟨body, hbody, hopen⟩ := h.opens
  exact .of_span (.unterminatedComment hbody hopen) Fault.noConfusion

namespace Scanner

theorem readToken_covers (b : Nat) :
    ∀ e ∈ (readToken (atOffset text b)).1.errors, ∃ i j, e.Covers text i j := by
  rcases (atOffset text b).readToken_cases with ⟨-, hread⟩ | ⟨cs, hquote, hread⟩ | ⟨hne, hquote, hread⟩ <;> rw [hread]
  · simp
  · have hdrop : text.drop b = '"' :: cs := hquote
    obtain ⟨q, hq, hfinds, -, -, herrors⟩ := readQuoted_atOffset hdrop
    have hbody := scan_quotedText (placeAt text (b + 1)) cs
    have hstops := scan_stops (placeAt text (b + 1)) cs
    have hle := Quoted.scan_taken_le (placeAt text (b + 1)) cs
    rw [← hq] at hbody hstops hle
    rw [herrors]
    intro e he
    rcases List.mem_append.1 he with he | he
    · rw [hfinds.errors] at he
      obtain ⟨i, hi⟩ := strays_covers he
      exact ⟨i, i + 2, hi⟩
    · split_ifs at he with hclosed
      · cases he
      · rw [Bool.not_eq_true] at hclosed
        rw [hclosed] at hbody
        have habout :
            (Fault.unterminatedString (String.ofList q.text)).IsAbout text b (b + 1 + (cs.take q.taken).length) :=
          .unterminatedString (by rw [List.take_append_drop, hdrop]) hbody (hstops hclosed)
        rw [List.length_take_of_le hle] at habout
        rw [List.mem_singleton.1 he]
        exact ⟨b, b + 1 + q.taken, .of_span habout Fault.noConfusion⟩
  · have hspan : (atOffset text b).readMunched.1.errors = if (munch (text.drop b)).1 = .error then
        [⟨.illegalCharacter (String.ofList ((text.drop b).take (munch (text.drop b)).2)),
          spanAt text b (b + (munch (text.drop b)).2)⟩] else [] := by
      simp only [readMunched, skip_atOffset]
      rfl
    rw [hspan]
    intro e he
    split_ifs at he with herror
    · obtain ⟨c, cs, hdrop, hlength, -⟩ := munch_error herror
      have hc : c ≠ '"' := by
        rintro rfl
        exact hquote (congrArg List.head? hdrop)
      have habout : (Fault.illegalCharacter (String.ofList [c])).IsAbout text b (b + 1) :=
        .illegalCharacter hdrop hc (by rwa [hdrop] at herror)
      rw [List.mem_singleton.1 he, hlength, hdrop]
      exact ⟨b, b + 1, .of_span habout Fault.noConfusion⟩
    · cases he

theorem next_covers (ha : a ≤ text.length) : ∀ e ∈ (atOffset text a).next.1.errors, ∃ i j, e.Covers text i j := by
  obtain ⟨b, -, -, hbehind, -⟩ := behindGap_atOffset ha
  rw [next_eq, hbehind]
  intro e he
  rcases List.mem_append.1 he with he | he
  · rcases skipGap_reported text a with ⟨herrors, -⟩ | ⟨o, ho, -, herrors⟩
    · rw [show (skipGap .between (atOffset text a).pos (atOffset text a).rest).errors = [] from herrors] at he
      cases he
    · rw [show (skipGap .between (atOffset text a).pos (atOffset text a).rest).errors = _ from herrors] at he
      rw [List.mem_singleton.1 he]
      exact ⟨o, o + 2, ho.covers⟩
  · exact readToken_covers b e he

end Scanner

/-- Where faults of the characters are reported. Each is about a piece of the text: one character that begins no token,
a stray backslash with the character behind it, a string from its opening quote to where its line or the text ends, or
the opening of a comment that stays open. It is reported from where that piece begins to where it ends, except that an
escape with a tab ends after two columns. -/
theorem tokenize_spans (source : String) : ∀ e ∈ (tokenize source).2, ∃ i j, e.Covers source.toList i j := by
  have hstep (s : Scanner) : (∃ a ≤ source.toList.length, s = Scanner.atOffset source.toList a) →
      s.next.1.token.kind ≠ .eof → ∃ a ≤ source.toList.length, s.next.2 = Scanner.atOffset source.toList a := by
    rintro ⟨a, ha, rfl⟩ hkind
    rcases Scanner.next_atOffset ha with ⟨htoken, -⟩ | ⟨b, e, -, -, he, -, -, -, -, hrest⟩
    · rw [htoken] at hkind
      exact absurd rfl hkind
    · exact ⟨e, he, hrest⟩
  intro e he
  obtain ⟨l, hl, he⟩ := List.mem_flatMap.1 he
  have hcovers (s : Scanner) : (∃ a ≤ source.toList.length, s = Scanner.atOffset source.toList a) →
      ∀ e ∈ s.next.1.errors, ∃ i j, e.Covers source.toList i j := by
    rintro ⟨a, ha, rfl⟩
    exact Scanner.next_covers ha
  exact @Scanner.forall_lexemes _ (fun l => ∀ e ∈ l.errors, ∃ i j, e.Covers source.toList i j) hstep hcovers
    (.ofString source) ⟨0, Nat.zero_le _, rfl⟩ l hl e he

/-- A stray backslash behind a tab, in a string that is not closed. -/
theorem tokenize_spans_backslash : (⟨.illegalEscape "\\q", ⟨⟨1, 10⟩, ⟨1, 12⟩⟩⟩ : Error) ∈ (tokenize "\t\"\\q").2 ∧
    ∃ i j, Error.Covers "\t\"\\q".toList ⟨.illegalEscape "\\q", ⟨⟨1, 10⟩, ⟨1, 12⟩⟩⟩ i j := by
  have hreported : (⟨.illegalEscape "\\q", ⟨⟨1, 10⟩, ⟨1, 12⟩⟩⟩ : Error) ∈ (tokenize "\t\"\\q").2 := by decide
  exact ⟨hreported, tokenize_spans _ _ hreported⟩

/-- The tab behind a backslash in the second column reaches to the ninth; the escape is reported up to the fourth, where
no character begins and the text does not end. -/
theorem illegalEscape_tab : (tokenize "\"\\\t\"").2 = [⟨.illegalEscape "\\\t", ⟨⟨1, 2⟩, ⟨1, 4⟩⟩⟩] ∧
    spanAt "\"\\\t\"".toList 1 3 = ⟨⟨1, 2⟩, ⟨1, 9⟩⟩ ∧
    ∀ j ≤ "\"\\\t\"".toList.length, placeAt "\"\\\t\"".toList j ≠ ⟨1, 4⟩ := by
  decide

end VCLang
