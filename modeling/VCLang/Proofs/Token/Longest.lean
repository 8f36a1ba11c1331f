/-
The longest token. Where a gap has been passed and the text goes on, a scanner takes the longest front of what is
left that has a form, and the token is of its kind; a quote begins a string, which is taken with its closing quote or,
without one, to the end of its line; and of a text that begins otherwise one character is taken, which is illegal.

No text has two longest tokens, so that the rule says all there is to say about what a scanner takes.
-/
import VCLang.Proofs.Token.Form
namespace VCLang

open TokenKind

/-- The token at the front of a text: its kind and the characters it stands over. -/
inductive Longest (text : List Char) : TokenKind → List Char → Prop
  | form {k : TokenKind} {cs : List Char} : Form k cs → cs <+: text →
    (∀ k' ds, Form k' ds → ds <+: text → ds.length ≤ cs.length) → Longest text k cs
  | closed {body content rest : List Char} : text = '"' :: (body ++ rest) → QuotedText true body content →
    Longest text stringLiteral ('"' :: body)
  | unclosed {body content rest : List Char} : text = '"' :: (body ++ rest) → QuotedText false body content →
    (∀ c ∈ rest.head?, c = '\n') → Longest text stringLiteral ('"' :: body)
  | illegal {c : Char} {rest : List Char} : text = c :: rest → c ≠ '"' → (∀ k ds, Form k ds → ¬ ds <+: text) →
    Longest text error [c]

/-! ## Strings -/

/-- A string without a closing quote ends where its line does. -/
theorem scan_stops (p : Position) (cs : List Char) (h : (Quoted.scan p cs).closed = false) :
    ∀ c ∈ (cs.drop (Quoted.scan p cs).taken).head?, c = '\n' := by
  fun_induction Quoted.scan p cs with
  | case1 => simp
  | case2 => cases h
  | case3 => simp
  | case4 p c cs d hd ih => exact ih h
  | case5 p c cs hd ih => exact ih h
  | case6 p c cs _ _ _ ih => exact ih h

/-- A backslash that begins no escape is taken by itself. -/
theorem scan_stray {cs : List Char} (h : cs.head?.bind unescape? = none) (p : Position) :
    ∃ p', (Quoted.scan p ('\\' :: cs)).taken = (Quoted.scan p' cs).taken + 1 ∧
      (Quoted.scan p ('\\' :: cs)).closed = (Quoted.scan p' cs).closed := by
  cases cs with
  | nil => exact ⟨p, rfl, rfl⟩
  | cons c cs =>
    have hc : unescape? c = none := h
    refine ⟨p.advance '\\', ?_⟩
    rw [Quoted.scan, hc]
    exact ⟨rfl, rfl⟩

/-- What stands for a text behind a quote is taken as a whole, and no more. -/
theorem QuotedText.taken {closed : Bool} {cs text rest : List Char} (h : QuotedText closed cs text)
    (hrest : closed = false → ∀ c ∈ rest.head?, c = '\n') (p : Position) :
    (Quoted.scan p (cs ++ rest)).taken = cs.length ∧ (Quoted.scan p (cs ++ rest)).closed = closed := by
  induction h generalizing p with
  | close => exact ⟨rfl, rfl⟩
  | stop =>
    cases rest with
    | nil => exact ⟨rfl, rfl⟩
    | cons c rest =>
      obtain rfl := hrest rfl c rfl
      exact ⟨rfl, rfl⟩
  | @escape closed c d cs text hd _ ih =>
    obtain ⟨htaken, hclosed⟩ := ih hrest ((p.advance '\\').advance c)
    rw [List.cons_append, List.cons_append, Quoted.scan, hd]
    exact ⟨congrArg (· + 2) htaken, hclosed⟩
  | @stray closed cs text hstray htext ih =>
    have hhead : (cs ++ rest).head?.bind unescape? = none := by
      cases cs with
      | cons c cs => exact hstray
      | nil =>
        cases htext
        cases rest with
        | nil => rfl
        | cons c rest =>
          obtain rfl := hrest rfl c rfl
          rfl
    obtain ⟨p', htaken, hclosed⟩ := scan_stray hhead p
    rw [List.cons_append, htaken, hclosed]
    exact ⟨congrArg (· + 1) (ih hrest p').1, (ih hrest p').2⟩
  | @plain closed c cs text hslash hquote hline _ ih =>
    obtain ⟨htaken, hclosed⟩ := ih hrest (p.advance c)
    rw [List.cons_append, Quoted.scan]
    · exact ⟨congrArg (· + 1) htaken, hclosed⟩
    all_goals simp_all

/-! ## Longest tokens -/

variable {text cs : List Char} {k : TokenKind}

/-- Whatever of a form a text begins with is no longer than the token that is read. -/
theorem TokenKind.Form.le_munch (h : Form k cs) (hfront : cs <+: text) :
    cs.length ≤ (munch text).2 ∧ (munch text).1 ≠ .error := by
  obtain ⟨rest, rfl⟩ := hfront
  exact ⟨(h.reaches rest).le, (h.reaches rest).not_error⟩

/-- Nothing of a form begins with a quote. -/
theorem TokenKind.Form.not_quote (h : Form k cs) : ¬ cs <+: '"' :: text :=
  fun hfront => (h.le_munch hfront).2 rfl

theorem longest_quote_iff (p : Position) : Longest ('"' :: text) k cs ↔
    k = stringLiteral ∧ cs = '"' :: text.take (Quoted.scan p text).taken := by
  constructor
  · intro h
    cases h with
    | form hform hfront _ => exact absurd hfront hform.not_quote
    | @closed body content rest htext hbody =>
      obtain rfl := (List.cons.inj htext).2
      rw [(hbody.taken (by rintro ⟨⟩) p).1, List.take_left]
      exact ⟨rfl, rfl⟩
    | @unclosed body content rest htext hbody hrest =>
      obtain rfl := (List.cons.inj htext).2
      rw [(hbody.taken (fun _ => hrest) p).1, List.take_left]
      exact ⟨rfl, rfl⟩
    | illegal htext hc _ => exact absurd (List.cons.inj htext).1.symm hc
  · rintro ⟨rfl, rfl⟩
    have hparts : '"' :: text =
        '"' :: (text.take (Quoted.scan p text).taken ++ text.drop (Quoted.scan p text).taken) := by
      rw [List.take_append_drop]
    have hbody := scan_quotedText p text
    cases hclosed : (Quoted.scan p text).closed with
    | true =>
      rw [hclosed] at hbody
      exact .closed hparts hbody
    | false =>
      rw [hclosed] at hbody
      exact .unclosed hparts hbody (scan_stops p text hclosed)

theorem longest_munch_iff (hne : text ≠ []) (hquote : text.head? ≠ some '"') :
    Longest text k cs ↔ k = (munch text).1 ∧ cs = text.take (munch text).2 := by
  have quoted {body : List Char} (htext : text = '"' :: body) : False := hquote (by rw [htext]; rfl)
  constructor
  · intro h
    cases h with
    | form hform hfront hlongest =>
      obtain ⟨hle, herror⟩ := hform.le_munch hfront
      have hread := form_munch hne herror
      have hlength := hlongest _ _ hread (List.take_prefix _ _)
      rw [List.length_take_of_le (munch_le text)] at hlength
      have hcs : cs = text.take (munch text).2 := by
        rw [List.prefix_iff_eq_take.1 hfront, Nat.le_antisymm hle hlength]
      subst hcs
      exact ⟨hform.unique hread, rfl⟩
    | closed htext _ => exact (quoted htext).elim
    | unclosed htext _ _ => exact (quoted htext).elim
    | @illegal c rest htext _ hnone =>
      have herror : (munch text).1 = .error := by
        by_contra herror
        exact hnone _ _ (form_munch hne herror) (List.take_prefix _ _)
      obtain ⟨_, _, -, hlength, -⟩ := munch_error herror
      rw [herror, hlength, htext]
      exact ⟨rfl, rfl⟩
  · rintro ⟨rfl, rfl⟩
    by_cases herror : (munch text).1 = .error
    · obtain ⟨c, rest, rfl, hlength, -⟩ := munch_error herror
      rw [herror, hlength]
      refine .illegal rfl (fun hc => quoted (by rw [hc])) fun k ds hform hfront => ?_
      exact (hform.le_munch hfront).2 herror
    · refine .form (form_munch hne herror) (List.take_prefix _ _) fun k ds hform hfront => ?_
      rw [List.length_take_of_le (munch_le text)]
      exact (hform.le_munch hfront).1

/-- A token is read by the rule of the longest token. -/
theorem Scanner.readToken_longest (hne : text ≠ []) (p : Position) :
    ∃ cs, text = cs ++ (readToken ⟨text, p⟩).2.rest ∧
      ∀ k ds, Longest text k ds ↔ k = (readToken ⟨text, p⟩).1.token.kind ∧ ds = cs := by
  unfold readToken
  split
  · rename_i hnil
    exact absurd hnil hne
  · rename_i body hquote
    obtain rfl : text = '"' :: body := hquote
    refine ⟨'"' :: body.take (Quoted.scan (p.after ['"']) body).taken, ?_, fun k ds => longest_quote_iff _⟩
    exact (congrArg ('"' :: ·) (List.take_append_drop _ body)).symm
  · rename_i hnil hquote
    refine ⟨text.take (munch text).2, (List.take_append_drop _ text).symm, fun k ds => ?_⟩
    refine longest_munch_iff hne fun h => ?_
    obtain ⟨body, rfl⟩ := List.head?_eq_some_iff.1 h
    exact hquote body rfl

/-- Maximal munch: where the text goes on behind a gap, what a scanner takes is the one longest token, and the token
that it gives is of its kind. -/
theorem next_longest (s : Scanner) (h : (skipGap .between s.pos s.rest).rest ≠ []) :
    ∃ cs, (skipGap .between s.pos s.rest).rest = cs ++ s.next.2.rest ∧
      ∀ k ds, Longest (skipGap .between s.pos s.rest).rest k ds ↔ k = s.next.1.token.kind ∧ ds = cs :=
  Scanner.readToken_longest h _

/-- A sign behind an `e` begins an exponent only if a digit follows it: the number ends in front of the `e`. -/
theorem next_longest_number : (skipGap .between .first " /*/*/1.e+x".toList).rest = "1.e+x".toList ∧
    ∀ k cs, Longest "1.e+x".toList k cs ↔ k = .floatLiteral ∧ cs = "1.".toList := by
  refine ⟨by decide, fun k cs => ?_⟩
  obtain ⟨ds, htext, hlongest⟩ := next_longest (Scanner.ofString " /*/*/1.e+x") (by decide)
  have hds : "1.".toList = ds := @List.append_cancel_right _ _ "e+x".toList _ htext
  rw [hds]
  exact hlongest k cs

end VCLang
