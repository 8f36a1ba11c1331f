/-
Templates and texts are in step. A template has one mark at most, and what a fault quotes stands in its text where the
template has the mark, whatever it is. So the filled template is the text, and the message that a sink stores of an
error is what the error says of itself.
-/
import VCLang.Proofs.Diagnostic.Numbers
namespace VCLang

/-! ## Filling a template -/

/-- The words take the place of the first mark. What they hold themselves is not looked at. -/
theorem fill_mark {front : String} (back words : String) (h : '%' ∉ front.toList) :
    fill (front ++ "%" ++ back) words = front ++ words ++ back := by
  have hmark : (front ++ "%" ++ back).toList = front.toList ++ '%' :: back.toList := by
    simp [String.toList_append]
  apply String.toList_inj.1
  rw [fill, String.toList_ofList, hmark, fillChars_append _ _ h, fillChars, if_pos rfl]
  simp [String.toList_append]

/-- A template without a mark stays as it is. -/
theorem fill_unmarked {template : String} (words : String) (h : '%' ∉ template.toList) :
    fill template words = template := by
  have hchars := fillChars_append words.toList [] h
  rw [List.append_nil, fillChars, List.append_nil] at hchars
  rw [fill, hchars, String.ofList_toList]

/-! ## Wording -/

namespace Fault

/-- A fault says what its template says: what it quotes stands in its text where the template has its only mark, and
where there is no mark it quotes nothing. -/
inductive Worded (f : Fault) : Prop
  | quoting (front back : String) : '%' ∉ front.toList → '%' ∉ back.toList → f.template = front ++ "%" ++ back →
    f.text = front ++ f.quoted ++ back → Worded f
  | plain : '%' ∉ f.template.toList → f.quoted = "" → f.text = f.template → Worded f

/-- What the field of a fault holds, as it is written: a spelling or a name, a kind of token, a type. -/
def field? : Fault → Option String
  | illegalCharacter words | illegalEscape words | unterminatedString words => some words
  | illegalPrimaryExpression words | invalidArraySize words => some words
  | redeclared name | declaredVoid name | declaredVoidArray name | undeclared name => some name
  | notScalar name | notArray name => some name
  | incompatibleBinaryOperand operator | incompatibleUnaryOperand operator => some operator
  | tokenExpected expected => some expected.spelling
  | ifConditionNotBoolean found | forConditionNotBoolean found | whileConditionNotBoolean found => some found.text
  | _ => none

variable {f : Fault}

/-- A template by its characters, as a literal has them. -/
theorem worded_around (front : List Char) {back : List Char} (hfront : '%' ∉ front) (hback : '%' ∉ back)
    (htemplate : f.template = String.ofList (front ++ '%' :: back))
    (htext : f.text = String.ofList front ++ f.quoted ++ String.ofList back) : f.Worded := by
  apply Worded.quoting (String.ofList front) (String.ofList back) _ _ _ htext
  · rwa [String.toList_ofList]
  · rwa [String.toList_ofList]
  · rw [htemplate, String.append_assoc, ← List.singleton_append, String.ofList_append, String.ofList_append]

/-- A template that begins with its mark. -/
theorem worded_before {back : List Char} (htext : f.text = f.quoted ++ String.ofList back) (hback : '%' ∉ back)
    (htemplate : f.template = String.ofList ('%' :: back)) : f.Worded := by
  apply worded_around [] List.not_mem_nil hback htemplate
  rw [htext, String.ofList_nil, String.empty_append]

/-- A template that ends with its mark. -/
theorem worded_behind {front : List Char} (htext : f.text = String.ofList front ++ f.quoted) (hfront : '%' ∉ front)
    (htemplate : f.template = String.ofList (front ++ ['%'])) : f.Worded := by
  apply worded_around front hfront List.not_mem_nil htemplate
  rw [htext, String.ofList_nil, String.append_empty]

/-- A template that ends with its mark, for a type in brackets. -/
theorem worded_found (front : List Char) (found : Ty) (hfront : '%' ∉ front)
    (htemplate : f.template = String.ofList (front ++ ['%'])) (hquoted : f.quoted = "(found: " ++ found.text ++ ")")
    (htext : f.text = String.ofList (front ++ "(found: ".toList) ++ found.text ++ ")") : f.Worded := by
  apply worded_behind _ hfront htemplate
  rw [htext, hquoted, String.ofList_append, String.ofList_toList]
  simp only [String.append_assoc]

theorem worded (f : Fault) : f.Worded := by
  cases f with
  | illegalCharacter | illegalEscape | unterminatedString | invalidArraySize => exact worded_before rfl (by decide) rfl
  | tokenExpected => exact worded_around ['"'] (by decide) (by decide) rfl rfl
  | ifConditionNotBoolean found =>
    exact worded_found "*20: if conditional is not boolean ".toList found (by decide) rfl rfl rfl
  | forConditionNotBoolean found =>
    exact worded_found "*21: for conditional is not boolean ".toList found (by decide) rfl rfl rfl
  | whileConditionNotBoolean found =>
    exact worded_found "*22: while conditional is not boolean ".toList found (by decide) rfl rfl rfl
  | illegalPrimaryExpression | redeclared | declaredVoid | declaredVoidArray | undeclared | notScalar | notArray
  | incompatibleBinaryOperand | incompatibleUnaryOperand => exact worded_behind rfl (by decide) rfl
  | _ => exact .plain (by rw [template, String.toList_ofList]; decide) rfl rfl

/-- What a fault quotes stands in its text as it is. -/
theorem Worded.contains (h : f.Worded) : ∃ front back, f.text = front ++ f.quoted ++ back := by
  cases h with
  | quoting front back _ _ _ htext => exact ⟨front, back, htext⟩
  | plain _ hquoted _ => exact ⟨f.text, "", by rw [hquoted, String.append_empty, String.append_empty]⟩

/-- A fault quotes what its field holds, a type in brackets. -/
theorem field_quoted {words : String} (h : f.field? = some words) :
    ∃ front back, f.quoted = front ++ words ++ back := by
  have hwhole : words = "" ++ words ++ "" := by rw [String.append_empty, String.empty_append]
  cases f with
  | ifConditionNotBoolean | forConditionNotBoolean | whileConditionNotBoolean =>
    cases h
    exact ⟨"(found: ", ")", rfl⟩
  | _ =>
    cases h
    try exact ⟨"", "", hwhole⟩

theorem Worded.fill_eq (h : f.Worded) : fill f.template f.quoted = f.text := by
  cases h with
  | quoting front back hfront _ htemplate htext => rw [htemplate, htext, fill_mark _ _ hfront]
  | plain hmark _ htext => rw [fill_unmarked _ hmark, htext]

end Fault

/-! ## Messages -/

/-- A fault and its template are in step, whatever the field of the fault holds: the filled template is the text; what
is quoted stands in it unaltered, and what the field holds stands in that; and what an empty sink holds behind the
report of the fault is one message that says it. -/
theorem fault_worded (f : Fault) : f.Worded ∧ fill f.template f.quoted = f.text ∧
    (∃ front back, f.text = front ++ f.quoted ++ back) ∧
    (∀ words, f.field? = some words → ∃ front back, f.quoted = front ++ words ++ back) ∧
    ∀ span, ∃ d : Diagnostic, (Diagnostics.empty.reportError ⟨f, span⟩).entries = [d] ∧ d.message = f.text ∧
      d.position = span ∧ d.text = "ERROR: " ++ (Error.mk f span).text := by
  have hfilled := f.worded.fill_eq
  refine ⟨f.worded, hfilled, f.worded.contains, fun _ => Fault.field_quoted, fun span => ?_⟩
  refine ⟨⟨fill f.template f.quoted, span⟩, rfl, hfilled, rfl, ?_⟩
  rw [hfilled]
  show "ERROR: " ++ span.text ++ ": " ++ f.text = "ERROR: " ++ (span.text ++ ": " ++ f.text)
  simp only [String.append_assoc]

/-- Marks and stars in what is quoted are words like others. -/
example : (Error.mk (.unterminatedString "*5: 100% of %") .dummy).diagnostic.message =
    "*5: 100% of %: unterminated string" := by
  decide

end VCLang
