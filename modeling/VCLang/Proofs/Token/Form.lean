/-
The forms of tokens, strings apart, as a grammar of its own: the marks, the reserved words, identifiers, integers,
and floats with their exponents. The token at the front of a text has one of these forms, it is at least as long as
whatever else of such a form the text begins with, and what has a form is, by itself, a token of this form only.

Nothing of a form holds a blank. So a token ends where it was meant to, if a blank or nothing stands behind it.
-/
import Mathlib.Data.List.TakeWhile
import VCLang.Proofs.Token.Faults
namespace VCLang

/-! ## Forms -/

/-- Digits, one at least. -/
def IsNumeral (cs : List Char) : Prop := cs ≠ [] ∧ ∀ c ∈ cs, c.isDigit = true

/-- `e` or `E`, a sign or none, and a numeral. -/
inductive IsExponent : List Char → Prop
  | plain {e : Char} {ds : List Char} : e = 'e' ∨ e = 'E' → IsNumeral ds → IsExponent (e :: ds)
  | signed {e s : Char} {ds : List Char} : e = 'e' ∨ e = 'E' → s = '+' ∨ s = '-' → IsNumeral ds →
    IsExponent (e :: s :: ds)

/-- A number with a point, which has digits on one side at least, or with an exponent, or with both. -/
inductive IsFloat : List Char → Prop
  | point {ws fs xs : List Char} : IsNumeral ws → (∀ c ∈ fs, c.isDigit = true) → xs = [] ∨ IsExponent xs →
    IsFloat (ws ++ '.' :: (fs ++ xs))
  | leadingPoint {fs xs : List Char} : IsNumeral fs → xs = [] ∨ IsExponent xs → IsFloat ('.' :: (fs ++ xs))
  | exponent {ws xs : List Char} : IsNumeral ws → IsExponent xs → IsFloat (ws ++ xs)

namespace TokenKind

/-- The separators and the operators. -/
def marks : List TokenKind :=
  [lParen, rParen, lCurly, rCurly, lBracket, rBracket, semicolon, comma,
    plus, minus, mult, div, not, andAnd, orOr, eqEq, notEq, lt, ltEq, gt, gtEq, eq]

/-- The characters that a token of a kind is written with. A word is an identifier exactly if it is not reserved. -/
inductive Form : TokenKind → List Char → Prop
  | mark {k : TokenKind} : k ∈ marks → Form k k.spelling.toList
  | reserved {word : String} {k : TokenKind} : (word, k) ∈ TokenKind.reserved → Form k word.toList
  | ident {c : Char} {cs : List Char} : isWordStart c = true → (∀ d ∈ cs, isWordPart d = true) →
    (∀ k, (String.ofList (c :: cs), k) ∉ TokenKind.reserved) → Form ident (c :: cs)
  | int {cs : List Char} : IsNumeral cs → Form intLiteral cs
  | float {cs : List Char} : IsFloat cs → Form floatLiteral cs

end TokenKind

open TokenKind

/-! ## Numbers -/

variable {c : Char} {ws fs xs cs ds rest : List Char}

theorem digitRun_append (h : ∀ c ∈ ds, c.isDigit = true) (rest : List Char) :
    digitRun (ds ++ rest) = ds.length + digitRun rest := by
  rw [digitRun, List.takeWhile_append_of_pos h, List.length_append]
  rfl

theorem digitRun_of_not_digit (h : c.isDigit = false) (cs : List Char) : digitRun (c :: cs) = 0 := by
  simp [digitRun, h]

theorem take_digitRun (cs : List Char) : cs.take (digitRun cs) = cs.takeWhile Char.isDigit :=
  (List.prefix_iff_eq_take.1 (List.takeWhile_prefix _)).symm

theorem isDigit_of_mem_digitRun : ∀ c ∈ cs.take (digitRun cs), c.isDigit = true := by
  rw [take_digitRun]
  exact List.all_eq_true.1 List.all_takeWhile

theorem isNumeral_digitRun (h : 0 < digitRun cs) : IsNumeral (cs.take (digitRun cs)) := by
  refine ⟨fun hnil => ?_, isDigit_of_mem_digitRun⟩
  rw [take_digitRun] at hnil
  rw [digitRun, hnil] at h
  exact Nat.lt_irrefl 0 h

/-- A number by the lengths of its parts. -/
theorem munchNumber_eq {w f x : Nat} (hw : digitRun cs = w) (hf : fractionLength (cs.drop w) = f)
    (hx : exponentLength (cs.drop (w + f)) = x) :
    munchNumber cs = (if f = 0 ∧ x = 0 then .intLiteral else .floatLiteral, w + f + x) := by
  subst hw hf hx
  rfl

/-! ### Exponents -/

theorem IsExponent.head (h : IsExponent xs) : ∃ e ds, xs = e :: ds ∧ (e = 'e' ∨ e = 'E') := by
  cases h with
  | plain he _ => exact ⟨_, _, rfl, he⟩
  | signed he _ _ => exact ⟨_, _, rfl, he⟩

/-- No digit, and no point, stands in front of an exponent or where it is absent. -/
theorem IsExponent.not_digit (h : IsExponent xs) (rest : List Char) :
    digitRun (xs ++ rest) = 0 ∧ fractionLength (xs ++ rest) = 0 := by
  obtain ⟨e, ds, rfl, rfl | rfl⟩ := h.head <;> exact ⟨rfl, rfl⟩

/-- An exponent is read, with the digits that follow it. -/
theorem IsExponent.length_append (h : IsExponent xs) (rest : List Char) :
    exponentLength (xs ++ rest) = xs.length + digitRun rest := by
  cases h with
  | @plain e ds he hds =>
    obtain ⟨hne, hdigits⟩ := hds
    obtain ⟨d, ds, rfl⟩ := List.exists_cons_of_ne_nil hne
    have hrun := digitRun_append hdigits rest
    have hd : ¬ (d = '+' ∨ d = '-') := by
      rintro (rfl | rfl) <;> exact absurd (hdigits _ List.mem_cons_self) (by decide)
    rw [List.cons_append] at hrun
    simp only [List.cons_append, List.length_cons] at hrun ⊢
    rw [exponentLength, if_pos he]
    simp only [if_neg hd]
    rw [if_neg (by omega), hrun]
    omega
  | @signed e s ds he hs hds =>
    obtain ⟨hne, hdigits⟩ := hds
    have hrun := digitRun_append hdigits rest
    have hpos := List.length_pos_iff.2 hne
    simp only [List.cons_append, List.length_cons]
    rw [exponentLength, if_pos he]
    simp only [if_pos hs]
    rw [if_neg (by omega), hrun]
    omega

/-- What is read as an exponent is one. -/
theorem isExponent_take (cs : List Char) (h : exponentLength cs ≠ 0) :
    IsExponent (cs.take (exponentLength cs)) := by
  revert h
  fun_cases exponentLength cs with
  | case3 e he s ds hs hrun =>
    intro _
    rw [List.take_succ_cons, List.take_succ_cons]
    exact .signed he hs (isNumeral_digitRun (Nat.pos_of_ne_zero hrun))
  | case4 e he s ds hs hrun => exact fun h => absurd (if_pos hrun) h
  | case5 e he s ds hs hrun =>
    intro _
    rw [if_neg hrun, List.take_succ_cons]
    exact .plain he (isNumeral_digitRun (Nat.pos_of_ne_zero hrun))
  | _ => exact fun h => absurd rfl h

/-- What is read as a fraction is a point with digits behind it. -/
theorem fraction_take (cs : List Char) (h : fractionLength cs ≠ 0) :
    ∃ fs, cs.take (fractionLength cs) = '.' :: fs ∧ fractionLength cs = fs.length + 1 ∧ ∀ c ∈ fs, c.isDigit = true := by
  revert h
  fun_cases fractionLength cs with
  | case1 cs =>
    intro _
    refine ⟨cs.take (digitRun cs), by rw [List.take_succ_cons], ?_, isDigit_of_mem_digitRun⟩
    rw [List.length_take_of_le (digitRun_le cs)]
  | case2 => exact fun h => absurd rfl h

/-! ### Numbers as a whole -/

theorem munchNumber_numeral_eq (h : ∀ c ∈ cs, c.isDigit = true) : munchNumber cs = (.intLiteral, cs.length) := by
  have hrun : digitRun cs = cs.length := by
    have happend := digitRun_append h []
    rwa [List.append_nil] at happend
  have hdrop : cs.drop (cs.length + 0) = [] := by rw [Nat.add_zero, List.drop_length]
  refine munchNumber_eq (f := 0) (x := 0) hrun ?_ ?_
  · rw [List.drop_length]
    rfl
  · rw [hdrop]
    rfl

theorem IsNumeral.le_munchNumber (h : IsNumeral cs) (rest : List Char) : cs.length ≤ (munchNumber (cs ++ rest)).2 := by
  have hrun := digitRun_append h.2 rest
  simp only [munchNumber]
  omega

/-- A number with a point is read at least to its end. -/
theorem munchNumber_point (hws : ∀ c ∈ ws, c.isDigit = true) (hfs : ∀ c ∈ fs, c.isDigit = true)
    (hxs : xs = [] ∨ IsExponent xs) (rest : List Char) :
    (ws ++ '.' :: (fs ++ xs)).length ≤ (munchNumber (ws ++ '.' :: (fs ++ (xs ++ rest)))).2 ∧
      (munchNumber (ws ++ '.' :: (fs ++ (xs ++ rest)))).1 = .floatLiteral := by
  have hrun : digitRun (ws ++ '.' :: (fs ++ (xs ++ rest))) = ws.length := by
    rw [digitRun_append hws, digitRun_of_not_digit (by decide), Nat.add_zero]
  have hfraction : fractionLength ((ws ++ '.' :: (fs ++ (xs ++ rest))).drop ws.length) =
      fs.length + digitRun (xs ++ rest) + 1 := by
    rw [List.drop_left, fractionLength, digitRun_append hfs]
  have hkind (x : Nat) : ¬ (fs.length + digitRun (xs ++ rest) + 1 = 0 ∧ x = 0) := by omega
  rw [munchNumber_eq hrun hfraction rfl, if_neg (hkind _)]
  refine ⟨?_, rfl⟩
  simp only [List.length_append, List.length_cons]
  rcases hxs with rfl | hxs
  · simp only [List.length_nil]
    omega
  · have happend : ws ++ '.' :: (fs ++ (xs ++ rest)) = (ws ++ '.' :: fs) ++ (xs ++ rest) := by simp
    have hbehind : (ws ++ '.' :: (fs ++ (xs ++ rest))).drop (ws.length + (fs.length + 1)) = xs ++ rest := by
      rw [happend, List.drop_left' (by simp)]
    rw [(hxs.not_digit rest).1, Nat.add_zero, hbehind, hxs.length_append]
    omega

/-- A number with an exponent and no point is read at least to its end. -/
theorem munchNumber_exponent (hws : ∀ c ∈ ws, c.isDigit = true) (hxs : IsExponent xs) (rest : List Char) :
    (ws ++ xs).length ≤ (munchNumber (ws ++ (xs ++ rest))).2 ∧
      (munchNumber (ws ++ (xs ++ rest))).1 = .floatLiteral := by
  obtain ⟨hdigit, hpoint⟩ := hxs.not_digit rest
  obtain ⟨e, ds, hcons, -⟩ := hxs.head
  have hrun : digitRun (ws ++ (xs ++ rest)) = ws.length := by rw [digitRun_append hws, hdigit, Nat.add_zero]
  have hfraction : fractionLength ((ws ++ (xs ++ rest)).drop ws.length) = 0 := by rw [List.drop_left, hpoint]
  have hexponent : exponentLength ((ws ++ (xs ++ rest)).drop (ws.length + 0)) = xs.length + digitRun rest := by
    rw [Nat.add_zero, List.drop_left, hxs.length_append]
  have hlength : xs.length = ds.length + 1 := by rw [hcons, List.length_cons]
  rw [munchNumber_eq hrun hfraction hexponent, if_neg (by omega)]
  refine ⟨?_, rfl⟩
  rw [List.length_append]
  omega

theorem IsFloat.munchNumber_append (h : IsFloat cs) (rest : List Char) :
    cs.length ≤ (munchNumber (cs ++ rest)).2 ∧ (munchNumber (cs ++ rest)).1 = .floatLiteral := by
  cases h with
  | @point ws fs xs hws hfs hxs =>
    have hread := munchNumber_point hws.2 hfs hxs rest
    rwa [List.append_assoc, List.cons_append, List.append_assoc]
  | @leadingPoint fs xs hfs hxs =>
    have hread := @munchNumber_point [] fs xs (by simp) hfs.2 hxs rest
    rwa [List.cons_append, List.append_assoc]
  | @exponent ws xs hws hxs =>
    have hread := munchNumber_exponent hws.2 hxs rest
    rwa [List.append_assoc]

/-- What is read as a number, if it begins with a digit, or with a point and a digit, is one. -/
theorem form_munchNumber (h : 0 < digitRun cs ∨ 1 < fractionLength cs) :
    Form (munchNumber cs).1 (cs.take (munchNumber cs).2) := by
  obtain ⟨w, hw⟩ : ∃ w, digitRun cs = w := ⟨_, rfl⟩
  obtain ⟨f, hf⟩ : ∃ f, fractionLength (cs.drop w) = f := ⟨_, rfl⟩
  obtain ⟨x, hx⟩ : ∃ x, exponentLength (cs.drop (w + f)) = x := ⟨_, rfl⟩
  have hparts : cs.take (w + f + x) = cs.take w ++ ((cs.drop w).take f ++ (cs.drop (w + f)).take x) := by
    rw [List.take_add, List.take_add, List.append_assoc]
  have hexponent (hx0 : x ≠ 0) : IsExponent ((cs.drop (w + f)).take x) := by
    subst hx
    exact isExponent_take _ hx0
  have hxs : (cs.drop (w + f)).take x = [] ∨ IsExponent ((cs.drop (w + f)).take x) := by
    by_cases hx0 : x = 0
    · exact .inl (by rw [hx0, List.take_zero])
    · exact .inr (hexponent hx0)
  have hpoint (hf0 : f ≠ 0) :
      ∃ fs, (cs.drop w).take f = '.' :: fs ∧ f = fs.length + 1 ∧ ∀ c ∈ fs, c.isDigit = true := by
    subst hf
    exact fraction_take _ hf0
  rw [munchNumber_eq hw hf hx]
  dsimp only
  rw [hparts]
  rcases Nat.eq_zero_or_pos w with hw0 | hpos
  · -- without digits in front the point has some behind it
    have hf1 : 1 < f := by
      rw [← hf, hw0, List.drop_zero]
      omega
    obtain ⟨fs, htake, hlength, hfs⟩ := hpoint (by omega)
    have hne : fs ≠ [] := by
      rintro rfl
      rw [List.length_nil] at hlength
      omega
    rw [if_neg (by omega), htake, hw0, List.take_zero, List.nil_append, List.cons_append]
    rw [hw0] at hxs
    exact .float (.leadingPoint ⟨hne, hfs⟩ hxs)
  · have hws : IsNumeral (cs.take w) := by
      subst hw
      exact isNumeral_digitRun hpos
    by_cases hf0 : f = 0
    · rw [hf0, List.take_zero, List.nil_append]
      rw [hf0] at hexponent
      by_cases hx0 : x = 0
      · rw [if_pos ⟨rfl, hx0⟩, hx0, List.take_zero, List.append_nil]
        exact .int hws
      · rw [if_neg fun h => hx0 h.2]
        exact .float (.exponent hws (hexponent hx0))
    · obtain ⟨fs, htake, -, hfs⟩ := hpoint hf0
      rw [if_neg fun h => hf0 h.1, htake, List.cons_append]
      exact .float (.point hws hfs hxs)

/-! ## Words and marks -/

theorem ofWord_eq_ident {word : String} (h : ∀ k, (word, k) ∉ TokenKind.reserved) : ofWord word = .ident := by
  rcases ofWord_cases word with hk | hk
  · exact hk
  · exact absurd hk (h _)

theorem ofWord_reserved {word : String} {k : TokenKind} (h : (word, k) ∈ TokenKind.reserved) : ofWord word = k := by
  have hall : ∀ x ∈ TokenKind.reserved, ofWord x.1 = x.2 := by decide +kernel
  exact hall _ h

theorem isDigit_of_isWordStart (h : isWordStart c = true) : c.isDigit = false := by
  by_contra hdigit
  have hnine : c.val ≤ '9'.val := of_decide_eq_true (Bool.and_eq_true_iff.1 (eq_true_of_ne_false hdigit)).2
  rcases Bool.or_eq_true_iff.1 h with hletter | hunderscore
  · rcases Bool.or_eq_true_iff.1 hletter with hupper | hlower
    · have hfirst : 'A'.val ≤ c.val := (of_decide_eq_true hupper).1
      exact absurd (UInt32.le_trans hfirst hnine) (by decide)
    · have hfirst : 'a'.val ≤ c.val := of_decide_eq_true (Bool.and_eq_true_iff.1 hlower).1
      exact absurd (UInt32.le_trans hfirst hnine) (by decide)
  · rw [of_decide_eq_true hunderscore] at hnine
    exact absurd hnine (by decide)

theorem isWordPart_of_isWordStart (h : isWordStart c = true) : isWordPart c = true := by
  rcases Bool.or_eq_true_iff.1 h with hletter | hunderscore
  · simp [isWordPart, Char.isAlphanum, hletter]
  · simp [isWordPart, hunderscore]

theorem munch_digit (h : c.isDigit = true) (cs : List Char) : munch (c :: cs) = munchNumber (c :: cs) := by
  generalize hcs : c :: cs = ds
  fun_cases munch ds <;> simp_all

theorem munch_wordStart (h : isWordStart c = true) (cs : List Char) : munch (c :: cs) = munchWord (c :: cs) := by
  have hdigit := isDigit_of_isWordStart h
  generalize hcs : c :: cs = ds
  fun_cases munch ds <;> cases hcs <;> first
    | exact absurd h (by decide)
    | simp_all

theorem take_munchWord (cs : List Char) : cs.take (munchWord cs).2 = cs.takeWhile isWordPart :=
  (List.prefix_iff_eq_take.1 (List.takeWhile_prefix _)).symm

/-- A run of word characters at the front of a text is read at least to its end. -/
theorem le_munchWord (h : ∀ c ∈ cs, isWordPart c = true) (rest : List Char) :
    cs.length ≤ (munchWord (cs ++ rest)).2 := by
  rw [munchWord, List.takeWhile_append_of_pos h, List.length_append]
  exact Nat.le_add_right _ _

theorem munchWord_self (h : ∀ c ∈ cs, isWordPart c = true) : (munchWord cs).1 = ofWord (String.ofList cs) := by
  rw [munchWord, List.takeWhile_eq_self_iff.2 h]

/-- What is read as a word is one. -/
theorem form_munchWord (h : isWordStart c = true) (cs : List Char) :
    Form (munchWord (c :: cs)).1 ((c :: cs).take (munchWord (c :: cs)).2) := by
  have hword : (c :: cs).takeWhile isWordPart = c :: cs.takeWhile isWordPart :=
    List.takeWhile_cons_of_pos (isWordPart_of_isWordStart h)
  rw [take_munchWord, hword]
  show Form (ofWord (String.ofList ((c :: cs).takeWhile isWordPart))) _
  rw [hword]
  by_cases hreserved : ∃ k, (String.ofList (c :: cs.takeWhile isWordPart), k) ∈ TokenKind.reserved
  · obtain ⟨k, hk⟩ := hreserved
    rw [ofWord_reserved hk]
    have hform := Form.reserved hk
    rwa [String.toList_ofList] at hform
  · rw [ofWord_eq_ident fun k hk => hreserved ⟨k, hk⟩]
    exact .ident h (List.all_eq_true.1 List.all_takeWhile) fun k hk => hreserved ⟨k, hk⟩

/-! ## Tokens -/

/-- The token at the front of a text has a form, unless it is a single character that begins none. -/
theorem form_munch (hne : cs ≠ []) (h : (munch cs).1 ≠ .error) : Form (munch cs).1 (cs.take (munch cs).2) := by
  have mark {k : TokenKind} {ds : List Char} (hk : k ∈ marks) (hds : ds = k.spelling.toList) : Form k ds := by
    rw [hds]
    exact .mark hk
  revert h
  fun_cases munch cs with
  | case23 d ds hd =>
    intro _
    have hpoint : fractionLength ('.' :: d :: ds) = digitRun (d :: ds) + 1 := rfl
    have hpos := digitRun_pos ds hd
    exact form_munchNumber (.inr (by omega))
  | case24 | case27 => exact fun h => absurd rfl h
  | case25 c ds hc => exact fun _ => form_munchNumber (.inl (digitRun_pos ds ‹_›))
  | case26 c ds => exact fun _ => form_munchWord ‹_› ds
  | case28 => exact absurd rfl hne
  | _ => exact fun _ => mark (by decide) rfl

/-- A mark is one character, or two that are read together. -/
theorem mark_cases {k : TokenKind} (h : k ∈ marks) :
    (∃ c, k.spelling.toList = [c] ∧ (munch [c]).1 = k) ∨
      ∃ c d, k.spelling.toList = [c, d] ∧ ∀ rest, munch (c :: d :: rest) = (k, 2) := by
  revert h
  cases k <;> first
    | exact fun h => absurd h (by decide)
    | exact fun _ => .inl ⟨_, rfl, rfl⟩
    | exact fun _ => .inr ⟨_, _, rfl, fun _ => rfl⟩

theorem wordParts_of_reserved {word : String} {k : TokenKind} (h : (word, k) ∈ TokenKind.reserved) :
    ∃ c cs, word.toList = c :: cs ∧ isWordStart c = true ∧ ∀ d ∈ cs, isWordPart d = true := by
  have hall : TokenKind.reserved.all (fun x =>
      x.1.toList.head?.any isWordStart && x.1.toList.tail.all isWordPart) = true := by
    decide +kernel
  obtain ⟨hhead, htail⟩ := Bool.and_eq_true_iff.1 (List.all_eq_true.1 hall _ h)
  dsimp only at hhead htail
  rcases hword : word.toList with _ | ⟨c, cs⟩
  · rw [hword] at hhead
    cases hhead
  · rw [hword] at hhead htail
    exact ⟨c, cs, rfl, hhead, List.all_eq_true.1 htail⟩

/-- What has a form at the front of a text is read at least to its end, and is a token of its kind by itself. -/
structure Reaches (k : TokenKind) (cs rest : List Char) : Prop where
  le : cs.length ≤ (munch (cs ++ rest)).2
  not_error : (munch (cs ++ rest)).1 ≠ .error
  whole : rest = [] → (munch cs).1 = k

theorem reaches_word (hc : isWordStart c = true) (hcs : ∀ d ∈ cs, isWordPart d = true) (rest : List Char) :
    Reaches (ofWord (String.ofList (c :: cs))) (c :: cs) rest := by
  have hword : ∀ d ∈ c :: cs, isWordPart d = true := List.forall_mem_cons.2 ⟨isWordPart_of_isWordStart hc, hcs⟩
  constructor
  · rw [List.cons_append, munch_wordStart hc]
    exact le_munchWord hword rest
  · rw [List.cons_append, munch_wordStart hc]
    exact ofWord_ne_error _
  · intro _
    rw [munch_wordStart hc, munchWord_self hword]

theorem IsNumeral.head (h : IsNumeral cs) : ∃ c ds, cs = c :: ds ∧ c.isDigit = true := by
  obtain ⟨c, ds, rfl⟩ := List.exists_cons_of_ne_nil h.1
  exact ⟨c, ds, rfl, h.2 c List.mem_cons_self⟩

/-- A float is read as a number. -/
theorem IsFloat.munch_append (h : IsFloat cs) (rest : List Char) : munch (cs ++ rest) = munchNumber (cs ++ rest) := by
  have digit {ds : List Char} (hds : IsNumeral ds) (es : List Char) : munch (ds ++ es) = munchNumber (ds ++ es) := by
    obtain ⟨c, ds, rfl, hc⟩ := hds.head
    exact munch_digit hc _
  cases h with
  | point hws _ _ =>
    rw [List.append_assoc]
    exact digit hws _
  | leadingPoint hfs _ =>
    obtain ⟨c, ds, rfl, hc⟩ := hfs.head
    simp only [List.cons_append]
    rw [munch, if_pos hc]
  | exponent hws _ =>
    rw [List.append_assoc]
    exact digit hws _

theorem TokenKind.Form.reaches {k : TokenKind} (h : Form k cs) (rest : List Char) : Reaches k cs rest := by
  cases h with
  | mark hk =>
    have herror : k ≠ .error := by
      rintro rfl
      exact absurd hk (by decide)
    rcases mark_cases hk with ⟨c, hc, hkind⟩ | ⟨c, d, hcd, hmunch⟩
    · rw [hc]
      refine ⟨munch_pos (List.cons_ne_nil c _), fun h => ?_, fun _ => hkind⟩
      -- a character that begins no token is none by itself
      obtain ⟨c', _, hcons, -, hc'⟩ := munch_error h
      rw [← (List.cons.inj hcons).1, hkind] at hc'
      exact herror hc'
    · rw [hcd]
      refine ⟨?_, ?_, fun _ => by rw [hmunch]⟩
      · exact Nat.le_of_eq (congrArg Prod.snd (hmunch rest)).symm
      · rw [List.cons_append, List.singleton_append, hmunch]
        exact herror
  | @reserved word k hk =>
    obtain ⟨c, cs, hword, hc, hcs⟩ := wordParts_of_reserved hk
    have hreach := reaches_word hc hcs rest
    rwa [← hword, String.ofList_toList, ofWord_reserved hk] at hreach
  | ident hc hcs hk =>
    have hreach := reaches_word hc hcs rest
    rwa [ofWord_eq_ident hk] at hreach
  | int hcs =>
    obtain ⟨c, ds, rfl, hc⟩ := hcs.head
    constructor
    · rw [List.cons_append, munch_digit hc]
      exact hcs.le_munchNumber rest
    · rw [List.cons_append, munch_digit hc]
      exact munchNumber_ne_error _
    · intro _
      rw [munch_digit hc, munchNumber_numeral_eq hcs.2]
  | float hcs =>
    have hread := hcs.munchNumber_append rest
    rw [← hcs.munch_append] at hread
    constructor
    · exact hread.1
    · rw [hread.2]
      decide
    · rintro rfl
      rw [List.append_nil] at hread
      exact hread.2

/-- What has a form is one token of its kind. -/
theorem TokenKind.Form.munch_self {k : TokenKind} (h : Form k cs) : munch cs = (k, cs.length) := by
  have hreach := h.reaches []
  have hle := hreach.le
  rw [List.append_nil] at hle
  exact Prod.ext (hreach.whole rfl) (Nat.le_antisymm (munch_le cs) hle)

/-- Nothing has two forms. -/
theorem TokenKind.Form.unique {k k' : TokenKind} (h : Form k cs) (h' : Form k' cs) : k = k' :=
  congrArg Prod.fst (h.munch_self.symm.trans h'.munch_self)

theorem TokenKind.Form.numeral (h : Form intLiteral cs) : IsNumeral cs := by
  generalize hk : intLiteral = k at h
  cases h with
  | mark hmark =>
    subst hk
    exact absurd hmark (by decide)
  | reserved hword =>
    have hall : ∀ x ∈ TokenKind.reserved, x.2 ≠ intLiteral := by decide
    exact absurd hk.symm (hall _ hword)
  | ident => cases hk
  | int hcs => exact hcs
  | float => cases hk

/-! ## Blanks -/

theorem isBlank_of_isWordPart (h : isWordPart c = true) : isBlank c = false := by
  by_contra hblank
  simp only [isBlank, Bool.not_eq_false, Bool.or_eq_true, decide_eq_true_eq] at hblank
  rcases hblank with (((rfl | rfl) | rfl) | rfl) | rfl <;> exact absurd h (by decide)

theorem isWordPart_of_isDigit (h : c.isDigit = true) : isWordPart c = true := by
  simp [isWordPart, Char.isAlphanum, h]

theorem IsNumeral.no_blank (h : IsNumeral cs) : ∀ c ∈ cs, isBlank c = false :=
  fun c hc => isBlank_of_isWordPart (isWordPart_of_isDigit (h.2 c hc))

theorem IsExponent.no_blank (h : IsExponent cs) : ∀ c ∈ cs, isBlank c = false := by
  have letter {e : Char} (he : e = 'e' ∨ e = 'E') : isBlank e = false := by
    rcases he with rfl | rfl <;> decide
  cases h with
  | plain he hds => exact List.forall_mem_cons.2 ⟨letter he, hds.no_blank⟩
  | @signed e s ds he hs hds =>
    have sign : isBlank s = false := by
      rcases hs with rfl | rfl <;> decide
    exact List.forall_mem_cons.2 ⟨letter he, List.forall_mem_cons.2 ⟨sign, hds.no_blank⟩⟩

theorem IsFloat.no_blank (h : IsFloat cs) : ∀ c ∈ cs, isBlank c = false := by
  have digits {ds : List Char} (hds : ∀ c ∈ ds, c.isDigit = true) : ∀ c ∈ ds, isBlank c = false :=
    fun c hc => isBlank_of_isWordPart (isWordPart_of_isDigit (hds c hc))
  have exponent {xs : List Char} (hxs : xs = [] ∨ IsExponent xs) : ∀ c ∈ xs, isBlank c = false := by
    rcases hxs with rfl | hxs
    · simp
    · exact hxs.no_blank
  have point : isBlank '.' = false := by decide
  cases h with
  | point hws hfs hxs =>
    simp only [List.forall_mem_append, List.forall_mem_cons]
    exact ⟨hws.no_blank, point, digits hfs, exponent hxs⟩
  | leadingPoint hfs hxs =>
    simp only [List.forall_mem_append, List.forall_mem_cons]
    exact ⟨point, hfs.no_blank, exponent hxs⟩
  | exponent hws hxs => exact List.forall_mem_append.2 ⟨hws.no_blank, hxs.no_blank⟩

theorem TokenKind.Form.no_blank {k : TokenKind} (h : Form k cs) : ∀ c ∈ cs, isBlank c = false := by
  have word {c : Char} {ds : List Char} (hc : isWordStart c = true) (hds : ∀ d ∈ ds, isWordPart d = true) :
      ∀ d ∈ c :: ds, isBlank d = false :=
    List.forall_mem_cons.2 ⟨isBlank_of_isWordPart (isWordPart_of_isWordStart hc),
      fun d hd => isBlank_of_isWordPart (hds d hd)⟩
  cases h with
  | mark hk =>
    have hall : marks.all (fun k => k.spelling.toList.all fun c => !isBlank c) = true := by decide +kernel
    intro c hc
    have hblank := List.all_eq_true.1 (List.all_eq_true.1 hall k hk) c hc
    simpa using hblank
  | reserved hk =>
    obtain ⟨c, cs, hword, hc, hcs⟩ := wordParts_of_reserved hk
    rw [hword]
    exact word hc hcs
  | ident hc hcs _ => exact word hc hcs
  | int hcs => exact hcs.no_blank
  | float hcs => exact hcs.no_blank

theorem TokenKind.Form.ne_nil {k : TokenKind} (h : Form k cs) : cs ≠ [] := by
  rintro rfl
  obtain rfl : TokenKind.eof = k := congrArg Prod.fst h.munch_self
  generalize hcs : ([] : List Char) = cs at h
  cases h with
  | mark hk => exact absurd hk (by decide)
  | reserved hk => exact absurd (ofWord_reserved hk) (ofWord_ne _).2

/-- What has a form is read to its end and no further, if nothing or a blank stands behind it. -/
theorem TokenKind.Form.munch_append {k : TokenKind} (h : Form k cs) (hrest : ∀ c ∈ rest.head?, isBlank c = true) :
    munch (cs ++ rest) = (k, cs.length) := by
  obtain ⟨hle, herror, -⟩ := h.reaches rest
  have hform := form_munch (List.append_ne_nil_of_left_ne_nil h.ne_nil rest) herror
  have hend := munch_le (cs ++ rest)
  generalize munch (cs ++ rest) = m at hle hform hend ⊢
  have hlength : m.2 = cs.length := by
    refine Nat.le_antisymm (Nat.le_of_not_lt fun hlt => ?_) hle
    cases rest with
    | nil =>
      rw [List.append_nil] at hend
      omega
    | cons c rest =>
      -- the token would hold the blank behind it
      obtain ⟨n, hn⟩ : ∃ n, m.2 - cs.length = n + 1 := ⟨m.2 - cs.length - 1, by omega⟩
      have hmem : c ∈ (cs ++ c :: rest).take m.2 := by
        rw [List.take_append, hn, List.take_succ_cons]
        simp
      have hblank := hform.no_blank c hmem
      rw [hrest c rfl] at hblank
      cases hblank
  rw [hlength, List.take_left] at hform
  exact Prod.ext (hform.unique h) hlength

end VCLang
