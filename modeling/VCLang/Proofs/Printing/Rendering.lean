/-
Scanning undoes the rendering of tokens. Words are written one behind the other, a blank behind each and behind the
blank any blanks and comments; a word that is not a string is written by its spelling, which has the form of its kind,
and a string between quotes, with the escapes that it needs and any that it does not. However it is laid out, the text
is cut into these words again, with nothing wrong with them.

The walk goes word by word: what separates two words is passed as a whole, a word ends at the blank behind it, and
escapes are decoded to what they were written for.
-/
import VCLang.Proofs.Printing.Printer
import VCLang.Proofs.Token.Form
namespace VCLang

/-! ## Renderings -/

/-- The characters that a text may be written with between quotes: any of them may be escaped, and quotes, backslashes
and newlines must be. -/
inductive Escaped : List Char → List Char → Prop
  | nil : Escaped [] []
  | escaped {c : Char} {text cs : List Char} : Escaped text cs → Escaped (c :: text) (escape c ++ cs)
  | plain {c : Char} {text cs : List Char} : c ≠ '"' → c ≠ '\\' → c ≠ '\n' → Escaped text cs →
    Escaped (c :: text) (c :: cs)

/-- The characters that a word may be written with. -/
inductive Word.WrittenAs : Word → List Char → Prop
  | form {k : TokenKind} {cs : List Char} : k.Form cs → WrittenAs ⟨k, String.ofList cs⟩ cs
  | string {text cs : List Char} : Escaped text cs →
    WrittenAs ⟨.stringLiteral, String.ofList text⟩ ('"' :: (cs ++ ['"']))

/-- What separates two words: a blank, then blanks and comments that end. -/
inductive Separator : List Char → Prop
  | mk {c : Char} {cs : List Char} : isBlank c = true → Filler false cs → Separator (c :: cs)

/-- The characters that words may be written with, from the first of them on. Behind the last one the separator may be
absent. -/
inductive Rendering : List Word → List Char → Prop
  | nil : Rendering [] []
  | last {w : Word} {cs : List Char} : w.WrittenAs cs → Rendering [w] cs
  | cons {w : Word} {ws : List Word} {cs sep rest : List Char} : w.WrittenAs cs → Separator sep → Rendering ws rest →
    Rendering (w :: ws) (cs ++ (sep ++ rest))

theorem Separator.filler {cs : List Char} (h : Separator cs) : Filler false cs := by
  cases h with
  | mk hc hcs => exact .blank hc hcs

theorem Separator.head_append {sep : List Char} (h : Separator sep) (rest : List Char) :
    ∀ c ∈ (sep ++ rest).head?, isBlank c = true := by
  cases h with
  | mk hc _ =>
    rintro _ ⟨⟩
    exact hc

/-! ## Strings -/

/-- An escaped character is decoded to itself. -/
theorem scan_escape (c : Char) (p : Position) (cs : List Char) :
    ∃ p', Quoted.scan p (escape c ++ cs) = (Quoted.scan p' cs).push c (escape c).length := by
  unfold escape
  split_ifs with hn hr ht hb hf hquote
  · exact ⟨_, by rw [hn]; rfl⟩
  · exact ⟨_, by rw [hr]; rfl⟩
  · exact ⟨_, by rw [ht]; rfl⟩
  · exact ⟨_, by rw [hb]; rfl⟩
  · exact ⟨_, by rw [hf]; rfl⟩
  · rcases hquote with rfl | rfl | rfl <;> exact ⟨_, rfl⟩
  · simp only [not_or] at hquote
    refine ⟨p.advance c, ?_⟩
    rw [List.singleton_append, Quoted.scan]
    · rfl
    all_goals simp_all

/-- A string is decoded to the text that it was written for. -/
theorem Escaped.scan {text cs : List Char} (h : Escaped text cs) (p : Position) (rest : List Char) :
    Quoted.scan p (cs ++ '"' :: rest) = ⟨text, cs.length + 1, true, []⟩ := by
  induction h generalizing p with
  | nil => rfl
  | @escaped c text cs _ ih =>
    obtain ⟨p', hp'⟩ := scan_escape c p (cs ++ '"' :: rest)
    rw [List.append_assoc, hp', ih, Quoted.push, List.length_append]
    simp only [Quoted.mk.injEq, and_true, true_and]
    omega
  | @plain c text cs hquote hslash hline _ ih =>
    rw [List.cons_append, Quoted.scan, ih]
    · rfl
    all_goals simp_all

/-! ## Words -/

variable {w : Word} {k : TokenKind} {cs rest : List Char}

theorem TokenKind.Form.ne_eof (h : k.Form cs) : k ≠ .eof := by
  have hkind := (munch_kind h.ne_nil).2
  rwa [h.munch_self] at hkind

theorem TokenKind.Form.ne_error (h : k.Form cs) : k ≠ .error := by
  have hnot := (h.reaches []).not_error
  rwa [List.append_nil, h.munch_self] at hnot

theorem Word.WrittenAs.ne_eof (h : w.WrittenAs cs) : w.kind ≠ .eof := by
  cases h with
  | form hform => exact hform.ne_eof
  | string => exact TokenKind.noConfusion

theorem Word.WrittenAs.ne_nil (h : w.WrittenAs cs) : cs ≠ [] := by
  cases h with
  | form hform => exact hform.ne_nil
  | string => exact List.cons_ne_nil _ _

/-- No gap stands in front of what has a form: a slash opens no comment, if it is the whole of it. -/
theorem TokenKind.Form.skipGap_append (h : k.Form cs) (hrest : ∀ c ∈ rest.head?, isBlank c = true) (p : Position) :
    skipGap .between p (cs ++ rest) = ⟨cs ++ rest, p, []⟩ := by
  have hmunch := h.munch_append hrest
  obtain ⟨c, ds, rfl⟩ := List.exists_cons_of_ne_nil h.ne_nil
  have hblank : isBlank c = false := h.no_blank c List.mem_cons_self
  have hslash (ds' : List Char) (d : Char) (hd : isBlank d = false) (hc : c = '/') : ds ++ rest ≠ d :: ds' := by
    subst hc
    -- a slash is a token of one character
    have hlength : ds.length = 0 := Nat.succ.inj (congrArg Prod.snd hmunch).symm
    obtain rfl := List.eq_nil_of_length_eq_zero hlength
    rintro hcons
    rw [List.nil_append] at hcons
    rw [hcons] at hrest
    rw [hrest d rfl] at hd
    cases hd
  rw [List.cons_append, skipGap, hblank]
  · rfl
  · exact fun ds' hc => hslash ds' '/' (by decide) hc
  · exact fun ds' hc => hslash ds' '*' (by decide) hc

namespace Scanner

/-- A scanner reads a word, with nothing wrong with it, and stands in front of the rest of a text. -/
structure Finds (r : Lexeme × Scanner) (w : Word) (rest : List Char) : Prop where
  word : r.1.token.word = w
  errors : r.1.errors = []
  rest : r.2.rest = rest

theorem readToken_form (h : k.Form cs) (hrest : ∀ c ∈ rest.head?, isBlank c = true) (p : Position) :
    Finds (readToken ⟨cs ++ rest, p⟩) ⟨k, String.ofList cs⟩ rest := by
  have hmunch := h.munch_append hrest
  unfold readToken
  split
  · rename_i hnil
    exact absurd (List.append_eq_nil_iff.1 hnil).1 h.ne_nil
  · rename_i ds hquote
    -- a quote begins no token but a string
    rw [show cs ++ rest = '"' :: ds from hquote] at hmunch
    exact absurd (Prod.mk.inj hmunch).1.symm h.ne_error
  · simp only [hmunch]
    constructor
    · show Word.mk k (String.ofList ((cs ++ rest).take cs.length)) = _
      rw [List.take_left]
    · exact if_neg h.ne_error
    · exact List.drop_left

theorem readToken_escaped {text : List Char} (h : Escaped text cs) (rest : List Char) (p : Position) :
    Finds (readToken ⟨'"' :: (cs ++ '"' :: rest), p⟩) ⟨.stringLiteral, String.ofList text⟩ rest := by
  let s : Scanner := ⟨'"' :: (cs ++ '"' :: rest), p⟩
  have hscan : Quoted.scan (s.skip 1).pos (s.skip 1).rest = ⟨text, cs.length + 1, true, []⟩ := h.scan _ _
  have hread : s.readToken = s.readQuoted := rfl
  rw [hread, readQuoted, hscan]
  refine ⟨rfl, rfl, ?_⟩
  show ('"' :: (cs ++ '"' :: rest)).drop (cs.length + 1 + 1) = rest
  rw [List.drop_succ_cons, List.drop_length_add_append]
  rfl

/-- A word behind a gap is scanned, if nothing or a blank stands behind it, and the scanner stops there. -/
theorem next_written {gap : List Char} (hgap : Filler false gap) (h : w.WrittenAs cs)
    (hrest : ∀ c ∈ rest.head?, isBlank c = true) (p : Position) : Finds (next ⟨gap ++ (cs ++ rest), p⟩) w rest := by
  let p' := p.after gap
  have hskip : skipGap .between p (gap ++ (cs ++ rest)) = skipGap .between p' (cs ++ rest) :=
    hgap.skipGap_append p (cs ++ rest)
  have hnext (hstay : skipGap .between p' (cs ++ rest) = ⟨cs ++ rest, p', []⟩) :
      next ⟨gap ++ (cs ++ rest), p⟩ = readToken ⟨cs ++ rest, p'⟩ := by
    rw [next, hskip, hstay]
    rfl
  cases h with
  | form hform =>
    rw [hnext (hform.skipGap_append hrest p')]
    exact readToken_form hform hrest p'
  | @string text cs htext =>
    have hstay : skipGap .between p' ('"' :: (cs ++ ['"']) ++ rest) = ⟨'"' :: (cs ++ ['"']) ++ rest, p', []⟩ := by
      rw [List.cons_append, skipGap, if_neg (by decide)] <;> simp
    rw [hnext hstay, List.cons_append, List.append_assoc]
    exact readToken_escaped htext rest p'

/-- A scanner cuts a text into words and the end mark, with nothing wrong with them. -/
structure Yields (ls : List Lexeme) (ws : List Word) : Prop where
  words : (ls.map fun l => l.token.word) = ws ++ [TokenKind.eof.word]
  errors : ∀ l ∈ ls, l.errors = []

/-- A gap with nothing behind it holds no token. -/
theorem yields_nil {gap : List Char} (hgap : Filler false gap) (n : Nat) (p : Position) :
    Yields (lexemesUpTo (n + 1) ⟨gap, p⟩) [] := by
  let p' := p.after gap
  have hskip : skipGap .between p (gap ++ []) = skipGap .between p' [] := hgap.skipGap_append p []
  rw [List.append_nil] at hskip
  have hnext : next ⟨gap, p⟩ = (⟨.eofAt p', []⟩, ⟨[], p'⟩) := by
    rw [next, hskip]
    rfl
  have hlast : lexemesUpTo (n + 1) ⟨gap, p⟩ = [⟨.eofAt p', []⟩] := by
    rw [lexemesUpTo, hnext]
    exact if_pos rfl
  rw [hlast]
  exact ⟨rfl, List.forall_mem_singleton.2 rfl⟩

/-- A word that is found comes first, and behind it what the rest of the text yields. -/
theorem Finds.yields {s : Scanner} {ws : List Word} {n : Nat} (h : Finds s.next w rest) (heof : w.kind ≠ .eof)
    (hrest : ∀ p, Yields (lexemesUpTo n ⟨rest, p⟩) ws) : Yields (lexemesUpTo (n + 1) s) (w :: ws) := by
  have hkind : s.next.1.token.kind ≠ .eof := by
    rw [← h.word] at heof
    exact heof
  rw [lexemesUpTo, if_neg hkind]
  obtain ⟨hword, herrors, rfl⟩ := h
  obtain ⟨hwords, hclean⟩ := hrest s.next.2.pos
  constructor
  · rw [List.map_cons, hword, hwords, List.cons_append]
  · exact List.forall_mem_cons.2 ⟨herrors, hclean⟩

/-- Words are found again in what they are rendered as. -/
theorem yields_rendering {ws : List Word} (h : Rendering ws cs) {gap : List Char} (hgap : Filler false gap) {n : Nat}
    (hn : ws.length < n) (p : Position) : Yields (lexemesUpTo n ⟨gap ++ cs, p⟩) ws := by
  induction h generalizing gap n p with
  | nil =>
    obtain ⟨n, rfl⟩ := Nat.exists_eq_succ_of_ne_zero (Nat.ne_of_gt hn)
    rw [List.append_nil]
    exact yields_nil hgap n p
  | @last w cs hw =>
    obtain ⟨n, rfl⟩ : ∃ m, n = m + 2 := ⟨n - 2, by simp only [List.length_singleton] at hn; omega⟩
    have hfinds : Finds (next ⟨gap ++ (cs ++ []), p⟩) w [] := next_written hgap hw (by simp) p
    rw [List.append_nil] at hfinds
    exact hfinds.yields hw.ne_eof fun q => yields_nil .nil n q
  | @cons w ws cs sep rest hw hsep _ ih =>
    obtain ⟨n, rfl⟩ := Nat.exists_eq_succ_of_ne_zero (Nat.ne_of_gt (Nat.zero_lt_of_lt hn))
    exact (next_written hgap hw (hsep.head_append rest) p).yields hw.ne_eof fun q =>
      ih hsep.filler (Nat.lt_of_succ_lt_succ hn) q

end Scanner

theorem Rendering.length_le {ws : List Word} (h : Rendering ws cs) : ws.length ≤ cs.length := by
  induction h with
  | nil => exact Nat.le_refl 0
  | last hw => exact List.length_pos_iff.2 hw.ne_nil
  | cons hw _ _ ih =>
    have hpos := List.length_pos_iff.2 hw.ne_nil
    simp only [List.length_cons, List.length_append]
    omega

theorem lexemes_rendering {ws : List Word} (h : Rendering ws cs) {gap : List Char} (hgap : Filler false gap) :
    Scanner.Yields (lexemes (String.ofList (gap ++ cs))) ws := by
  have hlength := h.length_le
  have hn : ws.length < (gap ++ cs).length + 1 := by
    rw [List.length_append]
    omega
  have hwalk := Scanner.yields_rendering h hgap hn .first
  rwa [lexemes, Scanner.lexemes, Scanner.ofString, String.toList_ofList]

/-! ## Scanning -/

theorem Scanner.Yields.tokenize {source : String} {ws : List Word} (h : Yields (VCLang.lexemes source) ws) :
    (tokenize source).1.map Token.word = ws ++ [TokenKind.eof.word] ∧ (tokenize source).2 = [] := by
  constructor
  · rw [VCLang.tokenize, List.map_map]
    exact h.words
  · exact List.flatMap_eq_nil_iff.2 h.errors

/-- Scanning undoes the rendering of tokens: the text of any words, however it is laid out, is scanned to just these
words and the end mark, and no error is reported. -/
theorem tokenize_rendering {ws : List Word} {lead : List Char} (hlead : lead = [] ∨ Separator lead)
    (h : Rendering ws cs) : (tokenize (String.ofList (lead ++ cs))).1.map Token.word = ws ++ [TokenKind.eof.word] ∧
      (tokenize (String.ofList (lead ++ cs))).2 = [] := by
  have hgap : Filler false lead := by
    rcases hlead with rfl | hlead
    · exact .nil
    · exact hlead.filler
  exact (lexemes_rendering h hgap).tokenize

/-- Quotes, stars and slashes in comments, a word that begins with a reserved one, a number that ends with its point,
and a string with escapes. -/
theorem tokenize_rendering_escapes :
    Rendering [TokenKind.kwInt.word, ⟨.ident, "ints"⟩, ⟨.floatLiteral, "1."⟩, ⟨.stringLiteral, "'\"\n"⟩]
        "int /*\"/***/ints\t1. //*\n\"\\'\\\"\\n\"".toList ∧
      (tokenize ("\n//\"\n" ++ "int /*\"/***/ints\t1. //*\n\"\\'\\\"\\n\"")).1.map Token.word =
        [TokenKind.kwInt.word, ⟨.ident, "ints"⟩, ⟨.floatLiteral, "1."⟩, ⟨.stringLiteral, "'\"\n"⟩] ++
          [TokenKind.eof.word] ∧
      (tokenize ("\n//\"\n" ++ "int /*\"/***/ints\t1. //*\n\"\\'\\\"\\n\"")).2 = [] := by
  have hlead : Separator "\n//\"\n".toList := .mk (by decide) (@Filler.line _ ['"'] _ (by decide) .nil)
  have hblock : Separator " /*\"/***/".toList :=
    .mk (by decide) (@Filler.block _ ['"', '/', '*', '*'] _ (by decide) .nil)
  have hline : Separator " //*\n".toList := .mk (by decide) (@Filler.line _ ['*'] _ (by decide) .nil)
  have hint : TokenKind.kwInt.Form "int".toList := .reserved (by decide)
  have hints : TokenKind.ident.Form "ints".toList := @form_munch "ints".toList (by decide) (by decide)
  have hfloat : TokenKind.floatLiteral.Form "1.".toList := @form_munch "1.".toList (by decide) (by decide)
  have hescaped : Escaped "'\"\n".toList "\\'\\\"\\n".toList := .escaped (.escaped (.escaped .nil))
  have hrendering : Rendering
      [TokenKind.kwInt.word, ⟨.ident, "ints"⟩, ⟨.floatLiteral, "1."⟩, ⟨.stringLiteral, "'\"\n"⟩]
      "int /*\"/***/ints\t1. //*\n\"\\'\\\"\\n\"".toList :=
    .cons (.form hint) hblock <| .cons (.form hints) (.mk (c := '\t') rfl .nil) <| .cons (.form hfloat) hline <|
      .last (.string hescaped)
  have hscan := tokenize_rendering (.inr hlead) hrendering
  rw [String.ofList_append, String.ofList_toList, String.ofList_toList] at hscan
  exact ⟨hrendering, hscan⟩

end VCLang
