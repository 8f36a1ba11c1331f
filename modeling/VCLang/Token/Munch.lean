/-
The longest token at the front of a text, quoted strings apart: its kind and how many characters it
takes. Words are ASCII; a number has an optional fraction and an optional exponent.
-/
import VCLang.Token.Kind
namespace VCLang

/-- How many digits a text begins with. -/
def digitRun (cs : List Char) : Nat := (cs.takeWhile Char.isDigit).length

/-- The length of a fraction: a point and any number of digits. -/
def fractionLength : List Char → Nat
  | '.' :: cs => digitRun cs + 1
  | _ => 0

/-- The length of an exponent: `e` or `E`, an optional sign, and one digit at least. -/
def exponentLength : List Char → Nat
  | [] => 0
  | e :: cs =>
    if e = 'e' ∨ e = 'E' then
      match cs with
      | s :: ds =>
        if s = '+' ∨ s = '-' then if digitRun ds = 0 then 0 else digitRun ds + 2
        else if digitRun cs = 0 then 0 else digitRun cs + 1
      | [] => 0
    else 0

/-- A number: digits, then a fraction and an exponent as far as the text has them. Either of these makes
it a float. -/
def munchNumber (cs : List Char) : TokenKind × Nat :=
  let whole := digitRun cs
  let fraction := fractionLength (cs.drop whole)
  let exponent := exponentLength (cs.drop (whole + fraction))
  (if fraction = 0 ∧ exponent = 0 then .intLiteral else .floatLiteral, whole + fraction + exponent)

/-- A character that a word can begin with. -/
def isWordStart (c : Char) : Bool := c.isAlpha || c = '_'

/-- A character that a word can go on with. -/
def isWordPart (c : Char) : Bool := c.isAlphanum || c = '_'

/-- A word is as long as its characters allow; whether it is reserved is decided on the whole of it. -/
def munchWord (cs : List Char) : TokenKind × Nat :=
  let word := cs.takeWhile isWordPart
  (TokenKind.ofWord (String.ofList word), word.length)

/-- The kind of the longest token that a non-empty text begins with, and its length. What begins no
token is one illegal character. -/
def munch : List Char → TokenKind × Nat
  | '(' :: _ => (.lParen, 1)
  | ')' :: _ => (.rParen, 1)
  | '{' :: _ => (.lCurly, 1)
  | '}' :: _ => (.rCurly, 1)
  | '[' :: _ => (.lBracket, 1)
  | ']' :: _ => (.rBracket, 1)
  | ';' :: _ => (.semicolon, 1)
  | ',' :: _ => (.comma, 1)
  | '+' :: _ => (.plus, 1)
  | '-' :: _ => (.minus, 1)
  | '*' :: _ => (.mult, 1)
  | '/' :: _ => (.div, 1)
  | '!' :: '=' :: _ => (.notEq, 2)
  | '!' :: _ => (.not, 1)
  | '=' :: '=' :: _ => (.eqEq, 2)
  | '=' :: _ => (.eq, 1)
  | '<' :: '=' :: _ => (.ltEq, 2)
  | '<' :: _ => (.lt, 1)
  | '>' :: '=' :: _ => (.gtEq, 2)
  | '>' :: _ => (.gt, 1)
  | '&' :: '&' :: _ => (.andAnd, 2)
  | '|' :: '|' :: _ => (.orOr, 2)
  | '.' :: d :: cs => if d.isDigit then munchNumber ('.' :: d :: cs) else (.error, 1)
  | c :: cs =>
    if c.isDigit then munchNumber (c :: cs)
    else if isWordStart c then munchWord (c :: cs)
    else (.error, 1)
  | [] => (.eof, 0)

theorem digitRun_pos {c : Char} (cs : List Char) (h : c.isDigit = true) : 0 < digitRun (c :: cs) := by
  simp [digitRun, h]

theorem munchNumber_pos {c : Char} (cs : List Char) (h : c.isDigit = true) :
    0 < (munchNumber (c :: cs)).2 := by
  have := digitRun_pos cs h
  simp only [munchNumber]
  omega

theorem munchNumber_point_pos {d : Char} (cs : List Char) (h : d.isDigit = true) :
    0 < (munchNumber ('.' :: d :: cs)).2 := by
  have h0 : digitRun ('.' :: d :: cs) = 0 := rfl
  have hd := digitRun_pos cs h
  simp only [munchNumber, h0, List.drop_zero, fractionLength]
  omega

theorem munchWord_pos {c : Char} (cs : List Char) (h : isWordStart c = true) :
    0 < (munchWord (c :: cs)).2 := by
  have hp : isWordPart c = true := by
    simp only [isWordStart, Bool.or_eq_true, decide_eq_true_eq] at h
    rcases h with h | h
    · simp [isWordPart, Char.isAlphanum, h]
    · simp [isWordPart, h]
  simp [munchWord, hp]

/-- A token takes one character at least. -/
theorem munch_pos {cs : List Char} (h : cs ≠ []) : 0 < (munch cs).2 := by
  fun_cases munch cs <;> simp_all [munchNumber_pos, munchNumber_point_pos, munchWord_pos]

end VCLang
