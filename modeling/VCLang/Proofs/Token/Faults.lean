/-
What can be wrong with a token: a character that begins none, an escape that is none, a string or a comment that
is not closed. Nothing else is reported while a text is cut.
-/
import VCLang.Proofs.Token.Lossless
namespace VCLang

/-- The faults of the characters of a text. -/
inductive Fault.Lexical : Fault → Prop
  | illegalCharacter {c : Char} : (munch [c]).1 = .error → Lexical (.illegalCharacter (String.ofList [c]))
  | illegalEscape {c : Char} : unescape? c = none → Lexical (.illegalEscape (String.ofList ['\\', c]))
  | unterminatedString {text : String} : Lexical (.unterminatedString text)
  | unterminatedComment : Lexical .unterminatedComment

/-- Nothing is wrong with a gap but a comment that stays open. -/
theorem skipGap_fault {m : GapMode} {p : Position} {cs : List Char} :
    ∀ e ∈ (skipGap m p cs).errors, e.fault = .unterminatedComment := by
  fun_induction skipGap m p cs with
  | case1 => exact List.forall_mem_singleton.2 rfl
  | _ => simp_all

/-- Nothing is wrong inside a string but an escape that is none. -/
theorem scan_fault {p : Position} {cs : List Char} : ∀ e ∈ (Quoted.scan p cs).errors,
    ∃ c, unescape? c = none ∧ e.fault = .illegalEscape (String.ofList ['\\', c]) := by
  fun_induction Quoted.scan p cs with
  | case5 p c cs hc ih =>
    intro e he
    rcases List.mem_append.1 he with he | he
    · unfold Quoted.stray at he
      split_ifs at he
      · cases he
      · rw [List.mem_singleton.1 he]
        exact ⟨c, hc, rfl⟩
    · exact ih e he
  | _ => simp_all [Quoted.push]

theorem ofWord_ne_error (word : String) : TokenKind.ofWord word ≠ .error := by
  have hreserved : ∀ x ∈ TokenKind.reserved, x.2 ≠ .error := by decide
  rcases ofWord_cases word with h | h
  · rw [h]
    decide
  · exact hreserved _ h

theorem munchNumber_ne_error (cs : List Char) : (munchNumber cs).1 ≠ .error := by
  rcases munchNumber_kind cs with h | h <;> rw [h] <;> decide

/-- What begins no token is one character, which alone begins none either. -/
theorem munch_error {cs : List Char} (h : (munch cs).1 = .error) :
    ∃ c ds, cs = c :: ds ∧ (munch cs).2 = 1 ∧ (munch [c]).1 = .error := by
  revert h
  fun_cases munch cs with
  | case23 | case25 => exact fun h => absurd h (munchNumber_ne_error _)
  | case26 => exact fun h => absurd h (ofWord_ne_error _)
  | case24 => exact fun _ => ⟨'.', _, rfl, rfl, by decide⟩
  | case27 => exact fun _ => ⟨_, _, rfl, rfl, by simp_all [munch]⟩
  | _ => rintro ⟨⟩

theorem Scanner.readToken_lexical (s : Scanner) : ∀ e ∈ s.readToken.1.errors, e.fault.Lexical := by
  unfold readToken
  split
  · simp
  · intro e he
    rcases List.mem_append.1 he with he | he
    · obtain ⟨c, hc, hfault⟩ := scan_fault e he
      rw [hfault]
      exact .illegalEscape hc
    · split_ifs at he
      · cases he
      · rw [List.mem_singleton.1 he]
        exact .unterminatedString
  · intro e he
    dsimp only at he
    split_ifs at he with hk
    · obtain ⟨c, ds, hrest, hlength, hc⟩ := munch_error hk
      rw [List.mem_singleton.1 he, hlength, hrest]
      exact .illegalCharacter hc
    · cases he

/-- A token has nothing to do with comments. -/
theorem Scanner.readToken_fault (s : Scanner) : ∀ e ∈ s.readToken.1.errors, e.fault ≠ .unterminatedComment := by
  unfold readToken
  split
  · simp
  · intro e he
    rcases List.mem_append.1 he with he | he
    · obtain ⟨c, -, hfault⟩ := scan_fault e he
      rw [hfault]
      exact Fault.noConfusion
    · split_ifs at he
      · cases he
      · rw [List.mem_singleton.1 he]
        exact Fault.noConfusion
  · intro e he
    dsimp only at he
    split_ifs at he
    · rw [List.mem_singleton.1 he]
      exact Fault.noConfusion
    · cases he

theorem Scanner.next_lexical (s : Scanner) : ∀ e ∈ s.next.1.errors, e.fault.Lexical := by
  intro e he
  rcases List.mem_append.1 he with he | he
  · rw [skipGap_fault e he]
    exact .unterminatedComment
  · exact readToken_lexical _ e he

/-- What is reported while a text is cut are faults of its characters. -/
theorem lexemes_lexical (source : String) : ∀ l ∈ lexemes source, ∀ e ∈ l.errors, e.fault.Lexical :=
  Scanner.forall_lexemesUpTo Scanner.next_lexical _ _

end VCLang
