/-
The catalog of faults, and the number that is read back from a stored message. The words that a template quotes
stand behind its number, or behind a text that has none, unless the template begins with them. Of these the words
of an unterminated string are any text of the program, and may themselves begin like a number.
-/
import VCLang.Diagnostic.Basic
import VCLang.Proofs.Text.Line
import VCLang.Proofs.Token.Faults
namespace VCLang

/-- The catalog: the numbers of the faults of the meaning. All other faults have none. -/
def Fault.number? : Fault → Option Nat
  | mainMissing => some 0
  | mainNotInt => some 1
  | redeclared _ => some 2
  | declaredVoid _ => some 3
  | declaredVoidArray _ => some 4
  | undeclared _ => some 5
  | incompatibleAssignment => some 6
  | invalidLvalue => some 7
  | incompatibleReturn => some 8
  | incompatibleBinaryOperand _ => some 9
  | incompatibleUnaryOperand _ => some 10
  | notScalar _ => some 11
  | notArray _ => some 12
  | wrongInitialiserElement => some 13
  | arrayInitialiserForScalar => some 14
  | scalarInitialiserForArray => some 15
  | excessElements => some 16
  | subscriptNotInteger => some 17
  | arraySizeMissing => some 18
  | notFunction => some 19
  | ifConditionNotBoolean _ => some 20
  | forConditionNotBoolean _ => some 21
  | whileConditionNotBoolean _ => some 22
  | breakOutsideLoop => some 23
  | continueOutsideLoop => some 24
  | tooManyArguments => some 25
  | tooFewArguments => some 26
  | wrongArgumentType => some 27
  | mainCalled => some 29
  | statementNotReached => some 30
  | missingReturn => some 31
  | _ => none

theorem Fault.number?_lt {f : Fault} {n : Nat} (h : f.number? = some n) : n < 32 := by
  cases f <;> cases h <;> decide

/-! ## Numbers of messages -/

/-- The number that the characters between a leading `*` and a `:` write: a decimal below 256, perhaps behind a
`+`. -/
def signedDecimal? : List Char → Option Nat
  | '+' :: ds => boundedDecimal? 255 ds
  | ds => boundedDecimal? 255 ds

/-- The number of a message is read up to the first `:`. -/
theorem catalogNumber?_colon (a b : List Char) :
    catalogNumber? (String.ofList ('*' :: (a ++ ':' :: b))) = signedDecimal? (a.takeWhile (· ≠ ':')) := by
  unfold catalogNumber?
  rw [String.toList_ofList]
  show (if ':' ∈ a ++ ':' :: b then _ else none) = _
  rw [if_pos (by simp), takeWhile_append_cons (by simp)]
  rfl

/-- A message that begins otherwise has no number. -/
theorem catalogNumber?_eq_none {cs : List Char} (h : cs.head? ≠ some '*') :
    catalogNumber? (String.ofList cs) = none := by
  unfold catalogNumber?
  rw [String.toList_ofList]
  split
  · exact absurd rfl h
  · rfl

/-- The digits of a number in the catalog are read back, and hold no mark for words. -/
theorem toDigits_catalog : ∀ n < 32, '%' ∉ Nat.toDigits 10 n ∧
    signedDecimal? ((Nat.toDigits 10 n).takeWhile (· ≠ ':')) = some n := by
  decide

/-! ## Templates -/

/-- The template of a fault of the meaning begins with its number. -/
theorem Fault.template_number {f : Fault} {n : Nat} (h : f.number? = some n) :
    ∃ cs, f.template.toList = '*' :: (Nat.toDigits 10 n ++ ':' :: cs) := by
  cases f <;> cases h <;> exact ⟨_, String.toList_ofList⟩

theorem Fault.template_unnumbered {f : Fault} (h : f.number? = none) : f.template.toList.head? ≠ some '*' := by
  cases f <;> cases h <;> rw [template, String.toList_ofList] <;> decide

/-- What a template is asked for is the number of the fault. -/
theorem Fault.code?_eq (f : Fault) : f.code? = f.number? := by
  rw [code?, ← String.ofList_toList (s := f.template)]
  rcases hn : f.number? with _ | n
  · exact catalogNumber?_eq_none (template_unnumbered hn)
  · obtain ⟨cs, hcs⟩ := template_number hn
    obtain ⟨-, hdigits⟩ := toDigits_catalog n (number?_lt hn)
    rw [hcs, catalogNumber?_colon, hdigits]

/-- What is put into a template behind a part of it leaves that part as it is. -/
theorem fillChars_append (words : List Char) {a : List Char} (b : List Char) (ha : '%' ∉ a) :
    fillChars words (a ++ b) = a ++ fillChars words b := by
  induction a with
  | nil => rfl
  | cons c a ih =>
    rw [List.mem_cons, not_or] at ha
    rw [List.cons_append, fillChars, if_neg (Ne.symm ha.1), ih ha.2, List.cons_append]

/-! ## Messages -/

/-- A message whose template does not begin with the words it quotes has the number of its fault, whatever these
words are. -/
theorem number_message {f : Fault} (words : String) (h : f.template.toList.head? ≠ some '%') :
    catalogNumber? (fill f.template words) = f.number? := by
  unfold fill
  rcases hn : f.number? with _ | n
  · have hstar := Fault.template_unnumbered hn
    rcases hcs : f.template.toList with _ | ⟨c, cs⟩
    · exact catalogNumber?_eq_none (by simp [fillChars])
    · rw [hcs] at h hstar
      rw [fillChars, if_neg (by simpa using h)]
      exact catalogNumber?_eq_none hstar
  · obtain ⟨cs, hcs⟩ := Fault.template_number hn
    obtain ⟨hmark, hdigits⟩ := toDigits_catalog n (Fault.number?_lt hn)
    have hfront : '%' ∉ '*' :: (Nat.toDigits 10 n ++ [':']) := by simpa using hmark
    have hfilled := fillChars_append words.toList cs hfront
    rw [List.cons_append, List.append_assoc, List.singleton_append] at hfilled
    rw [hcs, hfilled, List.cons_append, List.append_assoc, List.singleton_append, catalogNumber?_colon, hdigits]

/-- A message that begins with words of the program has no number unless they begin with `*`. -/
theorem number_message_words {f : Fault} {c : Char} {cs : List Char} (h : f.template.toList.head? = some '%')
    (hstar : c ≠ '*') : catalogNumber? (fill f.template (String.ofList (c :: cs))) = none := by
  unfold fill
  rcases ht : f.template.toList with _ | ⟨_, ts⟩
  · exact catalogNumber?_eq_none (by simp [fillChars])
  · rw [ht] at h
    cases h
    rw [fillChars, if_pos rfl, String.toList_ofList]
    exact catalogNumber?_eq_none (by simpa using hstar)

/-- The number that the message of an unterminated string is read back with: that of a text which begins with `*`
and a number, and ends there or goes on with `:`. -/
def misread? (spelling : String) : Option Nat :=
  match spelling.toList with
  | '*' :: cs => signedDecimal? (cs.takeWhile (· ≠ ':'))
  | _ => none

theorem number_message_unterminated (spelling : String) :
    catalogNumber? (fill (Fault.unterminatedString spelling).template spelling) = misread? spelling := by
  have htemplate : ∃ cs, (Fault.unterminatedString spelling).template.toList = '%' :: ':' :: cs :=
    ⟨_, String.toList_ofList⟩
  obtain ⟨ts, hts⟩ := htemplate
  rw [fill, hts, fillChars, if_pos rfl, misread?]
  rcases spelling.toList with _ | ⟨c, cs⟩
  · exact catalogNumber?_eq_none (by simp)
  by_cases hstar : c = '*'
  · subst hstar
    exact catalogNumber?_colon cs _
  · rw [List.cons_append, catalogNumber?_eq_none (by simpa using hstar)]
    split
    · rename_i h
      cases h
      exact absurd rfl hstar
    · rfl

end VCLang
