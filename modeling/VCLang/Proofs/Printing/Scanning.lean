/-
Scanning undoes printing. A word with a blank behind it is cut from a text again, since what has the form of a token
holds no blank, and the text of such words, a blank behind each, is a rendering of them. Fixed words, numerals and the
words of a text that was scanned are such words.
-/
import VCLang.Proofs.Grammar.Recognition
import VCLang.Proofs.Printing.Rendering
namespace VCLang

/-! ## Legible words -/

/-- A word that is cut from a text again, if it stands there with a blank behind it. -/
structure Word.Legible (w : Word) : Prop where
  kind_ne : w.kind ≠ .error ∧ w.kind ≠ .eof
  cut : w.kind ≠ .stringLiteral →
    w.spelling.toList ≠ [] ∧ ∀ rest, munch (w.spelling.toList ++ ' ' :: rest) = (w.kind, w.spelling.toList.length)

theorem legible_of_form {k : TokenKind} {cs : List Char} (h : k.Form cs) : Word.Legible ⟨k, String.ofList cs⟩ := by
  refine ⟨⟨h.ne_error, h.ne_eof⟩, fun _ => ?_⟩
  dsimp only
  rw [String.toList_ofList]
  refine ⟨h.ne_nil, fun rest => h.munch_append ?_⟩
  rintro _ ⟨⟩
  decide

/-- A legible word has the form of its kind, unless it is a string. -/
theorem Word.Legible.form {w : Word} (h : w.Legible) (hk : w.kind ≠ .stringLiteral) :
    w.kind.Form w.spelling.toList := by
  obtain ⟨hne, hcut⟩ := h.cut hk
  have hform := form_munch (List.append_ne_nil_of_left_ne_nil hne [' ']) (by rw [hcut]; exact h.kind_ne.1)
  rwa [hcut, List.take_left] at hform

namespace TokenKind

/-- The kinds that have only one spelling. -/
def isFixed : TokenKind → Bool
  | ident | intLiteral | floatLiteral | booleanLiteral | stringLiteral | error | eof => false
  | _ => true

@[simp] theorem legible_word {k : TokenKind} (h : k.isFixed = true) : k.word.Legible := by
  have hall : ∀ k ∈ all, k.isFixed = true → k ∈ marks ∨ (k.spelling, k) ∈ TokenKind.reserved := by decide +kernel
  have hform : k.Form k.spelling.toList := by
    rcases hall k (mem_all k) h with hk | hk
    · exact .mark hk
    · exact .reserved hk
  have hword := legible_of_form hform
  rwa [String.ofList_toList] at hword

/-- What has the form of a kind with only one spelling is this spelling. -/
theorem Form.spelling_eq {k : TokenKind} {cs : List Char} (h : k.Form cs) (hk : k.isFixed = true) :
    String.ofList cs = k.spelling := by
  cases h with
  | mark => exact String.ofList_toList
  | reserved hword =>
    have hall : ∀ x ∈ TokenKind.reserved, x.2.isFixed = true → x.1 = x.2.spelling := by decide +kernel
    rw [String.ofList_toList]
    exact hall _ hword hk
  | ident => cases hk
  | int => cases hk
  | float => cases hk

end TokenKind

theorem Word.Legible.word_eq {w : Word} (h : w.Legible) (hk : w.kind.isFixed = true) : w = w.kind.word := by
  have hstring : w.kind ≠ .stringLiteral := fun hs => by
    rw [hs] at hk
    cases hk
  have hspelling := (h.form hstring).spelling_eq hk
  rw [String.ofList_toList] at hspelling
  obtain ⟨k, s⟩ := w
  exact congrArg (Word.mk k) hspelling

/-! ## Numerals -/

/-- A number in decimal is a numeral of its value. -/
theorem toDigits_numeral (n : Nat) : Nat.toDigits 10 n ≠ [] ∧ (Nat.toDigits 10 n).all Char.isDigit = true ∧
    decimalValue (Nat.toDigits 10 n) = n := by
  refine ⟨Nat.toDigits_ne_nil, List.all_eq_true.2 fun c hc => ?_, ?_⟩
  · exact Nat.isDigit_of_mem_toDigits (by decide) (by decide) hc
  · exact Nat.ofDigitChars_toDigits (by decide) (by decide)

@[simp] theorem legible_sizeWord (n : Nat) : (sizeWord n).Legible := by
  obtain ⟨hne, hdigits, -⟩ := toDigits_numeral n
  exact legible_of_form (.int ⟨hne, List.all_eq_true.1 hdigits⟩)

/-! ## The text of some words -/

theorem escaped_flatMap (text : List Char) : Escaped text (text.flatMap escape) := by
  induction text with
  | nil => exact .nil
  | cons c text ih => exact .escaped ih

theorem Word.Legible.writtenAs {w : Word} (h : w.Legible) : w.WrittenAs w.text := by
  obtain ⟨k, s⟩ := w
  by_cases hk : k = .stringLiteral
  · subst hk
    have hstring := WrittenAs.string (escaped_flatMap s.toList)
    rwa [String.ofList_toList] at hstring
  · have hform := WrittenAs.form (h.form hk)
    rw [String.ofList_toList] at hform
    rwa [Word.text, if_neg hk]

/-- The text of some words is written with a blank behind each. -/
theorem rendering_textAll {ws : List Word} (h : ∀ w ∈ ws, w.Legible) : Rendering ws (Word.textAll ws) := by
  induction ws with
  | nil => exact .nil
  | cons w ws ih =>
    obtain ⟨hw, hws⟩ := List.forall_mem_cons.1 h
    have htext : Word.textAll (w :: ws) = w.text ++ ([' '] ++ Word.textAll ws) := by
      rw [Word.textAll, List.flatMap_cons, List.append_assoc]
      rfl
    rw [htext]
    exact .cons hw.writtenAs (.mk (by decide) .nil) (ih hws)

/-- The words of a printed text are the words it is made of. -/
theorem lexemes_textAll {ws : List Word} (h : ∀ w ∈ ws, w.Legible) :
    ((lexemes (String.ofList (Word.textAll ws))).map fun l => l.token.word) = ws ++ [TokenKind.eof.word] ∧
      ∀ l ∈ lexemes (String.ofList (Word.textAll ws)), l.errors = [] := by
  obtain ⟨hwords, herrors⟩ := lexemes_rendering (rendering_textAll h) .nil
  exact ⟨hwords, herrors⟩

/-! ## The words of a text -/

/-- A token that a text can mean something by is a legible word. -/
theorem Scanner.readToken_legible (s : Scanner) (herror : s.readToken.1.token.kind ≠ .error)
    (heof : s.readToken.1.token.kind ≠ .eof) : s.readToken.1.token.word.Legible := by
  revert herror heof
  unfold readToken
  split
  · exact fun _ heof => absurd rfl heof
  · have hkind : s.readQuoted.1.token.word.kind = .stringLiteral := rfl
    exact fun herror heof => ⟨⟨herror, heof⟩, fun hk => absurd hkind hk⟩
  · rename_i hnil _
    exact fun herror _ => legible_of_form (form_munch (fun h => hnil h) herror)

theorem lexemes_legible (source : String) :
    ∀ l ∈ lexemes source, l.token.kind ≠ .error → l.token.kind ≠ .eof → l.token.word.Legible :=
  Scanner.forall_lexemesUpTo (P := fun l => l.token.kind ≠ .error → l.token.kind ≠ .eof → l.token.word.Legible)
    (fun _ => Scanner.readToken_legible _) _ _

end VCLang
