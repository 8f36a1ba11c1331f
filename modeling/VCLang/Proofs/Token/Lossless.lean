/-
Cutting a text into tokens loses nothing. The tokens of a text stand at increasing offsets, each over one
character at least and with the span of its offsets; only blanks and comments lie between them; a token is
spelt by the characters it stands over, a string by what these stand for; and the end mark, which is the
last token and the only one of its kind, stands at the end of the text.

The invariant of the walk is that the rest of a scanner is the text from some offset on and its cursor is
at the place of that offset. One step reads a gap and a token and moves the offset on to the end of the
token, so that the fuel of the walk, a token for every character and one for the end, is never used up.

A cursor that holds its line and column in words shows what words keep of these places: the places themselves, unless
the text is so large that the words wrap around.
-/
import VCLang.Proofs.Text.Cursor
import VCLang.Proofs.Token.Filler
import VCLang.Token.Scan
namespace VCLang

/-- The characters behind an opening quote, with the closing quote if there is one, and the text they
stand for: the eight escapes are replaced, and any other backslash stays. -/
inductive QuotedText : Bool → List Char → List Char → Prop
  | close : QuotedText true ['"'] []
  | stop : QuotedText false [] []
  | escape {closed : Bool} {c d : Char} {cs text : List Char} :
    unescape? c = some d → QuotedText closed cs text → QuotedText closed ('\\' :: c :: cs) (d :: text)
  | stray {closed : Bool} {cs text : List Char} :
    cs.head?.bind unescape? = none → QuotedText closed cs text → QuotedText closed ('\\' :: cs) ('\\' :: text)
  | plain {closed : Bool} {c : Char} {cs text : List Char} :
    c ≠ '\\' → c ≠ '"' → c ≠ '\n' → QuotedText closed cs text → QuotedText closed (c :: cs) (c :: text)

/-- How a token is spelt by the characters it stands over. -/
def Token.Spells (t : Token) (cs : List Char) : Prop :=
  if t.kind = .stringLiteral then
    ∃ closed body text, cs = '"' :: body ∧ QuotedText closed body text ∧ t.spelling = String.ofList text
  else t.spelling = String.ofList cs

/-- The tokens of a text from an offset on, where a cursor shows a position at each offset. -/
inductive Cut (text : List Char) (shown : Nat → Position) : Nat → List Token → Prop
  /-- The end mark, at the end of the text. -/
  | last {a : Nat} : a ≤ text.length → Filler true (text.extract a text.length) →
    Cut text shown a [⟨.eof, "$", ⟨shown text.length, shown text.length⟩⟩]
  /-- A gap from `a` to `b` and a token from `b` to `e`. -/
  | next {a b e : Nat} {t : Token} {ts : List Token} : a ≤ b → b < e → e ≤ text.length →
    Filler false (text.extract a b) → t.kind ≠ .eof → t.span = ⟨shown b, shown e⟩ →
    t.Spells (text.extract b e) → Cut text shown e ts → Cut text shown a (t :: ts)

/-! ## Strings -/

/-- What is read of a string stands for its text. -/
theorem scan_quotedText (p : Position) (cs : List Char) :
    QuotedText (Quoted.scan p cs).closed (cs.take (Quoted.scan p cs).taken) (Quoted.scan p cs).text := by
  fun_induction Quoted.scan p cs with
  | case1 => exact .stop
  | case2 => exact .close
  | case3 => exact .stop
  | case4 p c cs d hd ih => exact .escape hd ih
  | case5 p c cs hd ih =>
    refine .stray ?_ ih
    rw [List.head?_take]
    split
    · rfl
    · exact hd
  | case6 p c cs hq hn hb ih =>
    by_cases hc : c = '\\'
    · subst hc
      -- a backslash comes here only as the last character of the text
      rcases cs with _ | ⟨d, ds⟩
      · exact .stray rfl .stop
      · exact absurd rfl (hb d ds rfl)
    · exact .plain hc (fun h => hq h) (fun h => hn h) ih

/-! ## Other tokens -/

theorem digitRun_le (cs : List Char) : digitRun cs ≤ cs.length := (List.takeWhile_prefix _).length_le

theorem fractionLength_le (cs : List Char) : fractionLength cs ≤ cs.length := by
  unfold fractionLength
  split
  · rename_i cs
    exact Nat.succ_le_succ (digitRun_le cs)
  · exact Nat.zero_le _

theorem exponentLength_le (cs : List Char) : exponentLength cs ≤ cs.length := by
  unfold exponentLength
  split
  · exact Nat.zero_le _
  · rename_i e cs
    split
    · split
      · rename_i s ds
        have hd := digitRun_le ds
        have hs := digitRun_le (s :: ds)
        simp only [List.length_cons] at hs ⊢
        split_ifs <;> omega
      · exact Nat.zero_le _
    · exact Nat.zero_le _

theorem munchNumber_le (cs : List Char) : (munchNumber cs).2 ≤ cs.length := by
  have h1 := digitRun_le cs
  have h2 := fractionLength_le (cs.drop (digitRun cs))
  have h3 := exponentLength_le (cs.drop (digitRun cs + fractionLength (cs.drop (digitRun cs))))
  simp only [List.length_drop] at h2 h3
  simp only [munchNumber]
  omega

theorem munchWord_le (cs : List Char) : (munchWord cs).2 ≤ cs.length := (List.takeWhile_prefix _).length_le

/-- A token takes no more than there is. -/
theorem munch_le (cs : List Char) : (munch cs).2 ≤ cs.length := by
  fun_cases munch cs <;> first
    | exact munchNumber_le _
    | exact munchWord_le _
    | simp

theorem munchNumber_kind (cs : List Char) :
    (munchNumber cs).1 = .intLiteral ∨ (munchNumber cs).1 = .floatLiteral := by
  simp only [munchNumber]
  split_ifs
  · exact .inl rfl
  · exact .inr rfl

/-- A word is an identifier, or reserved for its kind. -/
theorem ofWord_cases (word : String) :
    TokenKind.ofWord word = .ident ∨ (word, TokenKind.ofWord word) ∈ TokenKind.reserved := by
  unfold TokenKind.ofWord TokenKind.ofReserved?
  rcases h : TokenKind.reserved.lookup word with _ | k
  · exact .inl rfl
  · obtain ⟨l, r, hl, -⟩ := List.lookup_eq_some_iff.1 h
    exact .inr (by simp [hl])

/-- A word is neither a string nor the end mark. -/
theorem ofWord_ne (word : String) : TokenKind.ofWord word ≠ .stringLiteral ∧ TokenKind.ofWord word ≠ .eof := by
  have hreserved : ∀ x ∈ TokenKind.reserved, x.2 ≠ .stringLiteral ∧ x.2 ≠ .eof := by decide
  rcases ofWord_cases word with h | h
  · rw [h]
    decide
  · exact hreserved _ h

/-- What is cut from a text that does not begin with a quote is neither a string nor the end mark. -/
theorem munch_kind {cs : List Char} (h : cs ≠ []) :
    (munch cs).1 ≠ .stringLiteral ∧ (munch cs).1 ≠ .eof := by
  have number (ds : List Char) : (munchNumber ds).1 ≠ .stringLiteral ∧ (munchNumber ds).1 ≠ .eof := by
    rcases munchNumber_kind ds with hk | hk <;> rw [hk] <;> exact ⟨by decide, by decide⟩
  fun_cases munch cs <;> first
    | exact number _
    | exact ofWord_ne _
    | exact ⟨by decide, by decide⟩
    | exact absurd rfl h

/-! ## One step -/

namespace Scanner

/-- A scanner that stands at an offset of a text. -/
def atOffset (text : List Char) (a : Nat) : Scanner := ⟨text.drop a, placeAt text a⟩

theorem skip_atOffset (text : List Char) (a n : Nat) : (atOffset text a).skip n = atOffset text (a + n) := by
  simp only [skip, atOffset, List.drop_drop, placeAt_add]

theorem extract_add (text : List Char) (a n : Nat) : text.extract a (a + n) = (text.drop a).take n := by
  rw [List.extract, Nat.add_sub_cancel_left]

/-- A gap leads from one offset to another over blanks and comments. -/
theorem skipGap_atOffset {text : List Char} {a : Nat} (ha : a ≤ text.length) :
    ∃ b, a ≤ b ∧ b ≤ text.length ∧
      (skipGap .between (placeAt text a) (text.drop a)).rest = text.drop b ∧
      (skipGap .between (placeAt text a) (text.drop a)).pos = placeAt text b ∧
      Filler (text.drop b).isEmpty (text.extract a b) := by
  obtain ⟨ds, h, hp⟩ := skipGap_spec .between (placeAt text a) (text.drop a)
  obtain ⟨ds', h', hf⟩ := skipGap_filler .between (placeAt text a) (text.drop a)
  have hds : ds' = ds := List.append_cancel_right (h'.symm.trans h)
  rw [hds] at hf
  generalize skipGap .between (placeAt text a) (text.drop a) = g at h hp hf ⊢
  have hlen := congrArg List.length h
  simp only [List.length_drop, List.length_append] at hlen
  have hrest : g.rest = text.drop (a + ds.length) := by
    rw [← List.drop_drop, h, List.drop_left]
  have hread : text.extract a (a + ds.length) = ds := by
    rw [extract_add, h, List.take_left]
  refine ⟨a + ds.length, by omega, by omega, hrest, ?_, ?_⟩
  · rw [hp, placeAt_add, ← extract_add, hread]
  · rw [hread, ← hrest]
    exact hf

/-- Where a text goes on, a token is read: it stands over the characters up to a later offset. -/
theorem readToken_atOffset {text : List Char} {b : Nat} (hb : b < text.length) :
    ∃ e, b < e ∧ e ≤ text.length ∧ (readToken (atOffset text b)).2 = atOffset text e ∧
      (readToken (atOffset text b)).1.token.kind ≠ .eof ∧
      (readToken (atOffset text b)).1.token.span = spanAt text b e ∧
      (readToken (atOffset text b)).1.token.Spells (text.extract b e) := by
  have hne : text.drop b ≠ [] := by
    rw [Ne, List.drop_eq_nil_iff]
    omega
  have hlen : (text.drop b).length = text.length - b := List.length_drop
  unfold readToken
  split
  · rename_i hnil
    exact absurd hnil hne
  · rename_i cs hq
    change text.drop b = '"' :: cs at hq
    have hskip : (atOffset text b).skip 1 = atOffset text (b + 1) := skip_atOffset text b 1
    have hcs : text.drop (b + 1) = cs := by rw [← List.drop_drop, hq, List.drop_one, List.tail_cons]
    have htaken := Quoted.scan_taken_le (placeAt text (b + 1)) cs
    have hquoted := scan_quotedText (placeAt text (b + 1)) cs
    rw [hq, List.length_cons] at hlen
    simp only [readQuoted, hskip, skip_atOffset]
    simp only [atOffset, hcs]
    generalize Quoted.scan (placeAt text (b + 1)) cs = q at htaken hquoted ⊢
    refine ⟨b + (q.taken + 1), by omega, by omega, rfl, by simp, rfl, ?_⟩
    rw [Token.Spells, if_pos rfl]
    refine ⟨q.closed, cs.take q.taken, q.text, ?_, hquoted, rfl⟩
    rw [extract_add, hq, List.take_succ_cons]
  · have hpos := munch_pos hne
    have hle := munch_le (text.drop b)
    obtain ⟨hstring, heof⟩ := munch_kind hne
    simp only [skip_atOffset]
    simp only [atOffset]
    generalize munch (text.drop b) = m at hpos hle hstring heof ⊢
    refine ⟨b + m.2, by omega, by omega, rfl, heof, rfl, ?_⟩
    rw [Token.Spells, if_neg hstring, extract_add]

/-- One step from an offset: either the end mark behind a last gap, or a gap and a token. -/
theorem next_atOffset {text : List Char} {a : Nat} (ha : a ≤ text.length) :
    ((atOffset text a).next.1.token = ⟨.eof, "$", spanAt text text.length text.length⟩ ∧
      Filler true (text.extract a text.length)) ∨
    ∃ b e, a ≤ b ∧ b < e ∧ e ≤ text.length ∧ Filler false (text.extract a b) ∧
      (atOffset text a).next.1.token.kind ≠ .eof ∧ (atOffset text a).next.1.token.span = spanAt text b e ∧
      (atOffset text a).next.1.token.Spells (text.extract b e) ∧ (atOffset text a).next.2 = atOffset text e := by
  obtain ⟨b, hab, hb, hrest, hpos, hf⟩ := skipGap_atOffset ha
  have hnext : (atOffset text a).next.1.token = (readToken (atOffset text b)).1.token ∧
      (atOffset text a).next.2 = (readToken (atOffset text b)).2 := by
    simp only [next, atOffset, hrest, hpos, and_self]
  rw [hnext.1, hnext.2]
  rcases Nat.lt_or_eq_of_le hb with hlt | rfl
  · have hne : (text.drop b).isEmpty = false := by
      rw [List.isEmpty_eq_false_iff, Ne, List.drop_eq_nil_iff]
      omega
    obtain ⟨e, hbe, he, hs, hk, hspan, hspell⟩ := readToken_atOffset hlt
    rw [hne] at hf
    exact .inr ⟨b, e, hab, hbe, he, hf, hk, hspan, hspell, hs⟩
  · rw [List.drop_length] at hf
    refine .inl ⟨?_, hf⟩
    unfold readToken atOffset
    rw [List.drop_length]
    rfl

/-! ## The walk -/

/-- What holds of the lexeme at any place holds of all lexemes of a walk. -/
theorem forall_lexemesUpTo {P : Lexeme → Prop} (h : ∀ s : Scanner, P s.next.1) (n : Nat) (s : Scanner) :
    ∀ l ∈ lexemesUpTo n s, P l := by
  induction n generalizing s with
  | zero => exact fun l hl => absurd hl List.not_mem_nil
  | succ n ih =>
    intro l hl
    rw [lexemesUpTo] at hl
    split_ifs at hl
    · rw [List.mem_singleton.1 hl]
      exact h s
    · rcases List.mem_cons.1 hl with rfl | hl
      · exact h s
      · exact ih _ l hl

/-- A walk with fuel for every character that is left and for the end cuts the text. -/
theorem lexemesUpTo_cut {text : List Char} :
    ∀ (n a : Nat), a ≤ text.length → text.length < a + n →
      Cut text (placeAt text) a ((lexemesUpTo n (atOffset text a)).map Lexeme.token)
  | 0, a, ha, hn => absurd hn (by omega)
  | n + 1, a, ha, hn => by
    rw [lexemesUpTo]
    rcases next_atOffset ha with ⟨htoken, hf⟩ | ⟨b, e, hab, hbe, he, hf, hk, hspan, hspell, hs⟩
    · rw [if_pos (by rw [htoken]), List.map_singleton, htoken]
      exact .last ha hf
    · rw [if_neg hk, List.map_cons, hs]
      exact .next hab hbe he hf hk hspan hspell (lexemesUpTo_cut n e he (by omega))

end Scanner

/-- The end mark is the last token of a text and the only one of its kind. -/
theorem Cut.eof_last {text : List Char} {shown : Nat → Position} {a : Nat} {ts : List Token} (h : Cut text shown a ts) :
    ∃ front, ts = front ++ [⟨.eof, "$", ⟨shown text.length, shown text.length⟩⟩] ∧
      ∀ t ∈ front, t.kind ≠ .eof := by
  induction h with
  | last => exact ⟨[], rfl, fun t ht => absurd ht List.not_mem_nil⟩
  | @next a b e t ts _ _ _ _ hk _ _ _ ih =>
    obtain ⟨front, rfl, hfront⟩ := ih
    refine ⟨t :: front, rfl, fun u hu => ?_⟩
    rcases List.mem_cons.1 hu with rfl | hu
    · exact hk
    · exact hfront u hu

/-! ## Words -/

/-- A token as it is kept with its span in words. -/
def Token.wrapped (t : Token) : Token := { t with span := t.span.wrapped }

/-- Where a cursor shows what words keep of the places of a text, the tokens of the text are kept with what it shows. -/
theorem Cut.wrapped {text : List Char} {shown : Nat → Position} {a : Nat} {ts : List Token}
    (h : Cut text (placeAt text) a ts) (hshown : ∀ i ≤ text.length, shown i = (placeAt text i).wrapped) :
    Cut text shown a (ts.map Token.wrapped) := by
  induction h with
  | last ha hf =>
    rw [List.map_singleton, Token.wrapped, Span.wrapped, ← hshown _ (Nat.le_refl _)]
    exact .last ha hf
  | @next a b e t ts hab hbe he hf hk hspan hspell _ ih =>
    refine .next hab hbe he hf hk ?_ hspell ih
    rw [Token.wrapped, hspan, Span.wrapped, hshown b (by omega), hshown e he]

/-- Nothing of the tokens of a text is lost in words if its places fit. -/
theorem Cut.wrapped_eq {text : List Char} {a : Nat} {ts : List Token} (h : Cut text (placeAt text) a ts)
    (hfits : Fits text) : ts.map Token.wrapped = ts := by
  induction h with
  | last =>
    rw [List.map_singleton, Token.wrapped, Span.wrapped, (hfits _ (Nat.le_refl _)).wrapped]
  | @next a b e t ts _ hbe he _ _ hspan _ _ ih =>
    have hspan' : t.span.wrapped = t.span := by
      rw [hspan, Span.wrapped, (hfits b (by omega)).wrapped, (hfits e he).wrapped]
    rw [List.map_cons, ih, Token.wrapped, hspan']

/-! ## Whole texts -/

theorem lexemes_cut (source : String) : Cut source.toList (placeAt source.toList) 0 (tokenize source).1 :=
  Scanner.lexemesUpTo_cut (source.toList.length + 1) 0 (Nat.zero_le _) (by omega)

/-- Scanning is lossless: the tokens of a text are cut from it one behind the other, from its first character to its
end, with nothing but blanks and comments between them, and exactly one of them, the last, is the end mark. Their spans
are what a cursor shows at their first characters and behind their last ones. It holds words, which wrap around; where
the lines and columns of the text fit into words, it shows the places of the offsets, and no span loses anything. -/
theorem tokenize_lossless (source : String) :
    let text := source.toList
    let shown (i : Nat) := (Cursor.advance^[i] (.ofString source)).position
    let tokens := (tokenize source).1.map Token.wrapped
    Cut text shown 0 tokens ∧
      (∃ front, tokens = front ++ [⟨.eof, "$", ⟨shown text.length, shown text.length⟩⟩] ∧ ∀ t ∈ front, t.kind ≠ .eof) ∧
      (Fits text → tokens = (tokenize source).1 ∧ ∀ i ≤ text.length, shown i = placeAt text i) := by
  intro text shown tokens
  have hcut := lexemes_cut source
  have hshown (i : Nat) (hi : i ≤ text.length) : shown i = (placeAt text i).wrapped :=
    (Cursor.at_iterate source hi).position
  have htokens : Cut text shown 0 tokens := hcut.wrapped hshown
  refine ⟨htokens, htokens.eof_last, fun hfits => ⟨hcut.wrapped_eq hfits, fun i hi => ?_⟩⟩
  rw [hshown i hi, (hfits i hi).wrapped]

end VCLang
