/-
Cutting a text into tokens. A scanner is the rest of the text and a cursor; each token has the errors that
were met while its gap and its characters were read. At the end of the text every further token is the
same end mark.
-/
import VCLang.Token.Basic
import VCLang.Token.Gap
import VCLang.Token.Munch
import VCLang.Token.Quoted
namespace VCLang

/-- The text still to be read, and where it begins. -/
structure Scanner where
  rest : List Char
  pos : Position
  deriving Repr

namespace Scanner

def ofString (source : String) : Scanner := ⟨source.toList, .first⟩

/-- Moves the cursor over `n` characters. -/
def skip (s : Scanner) (n : Nat) : Scanner := ⟨s.rest.drop n, s.pos.after (s.rest.take n)⟩

/-- The string literal behind an opening quote. An unterminated one is reported over all it took. -/
def readQuoted (s : Scanner) : Lexeme × Scanner :=
  let q := Quoted.scan (s.skip 1).pos (s.skip 1).rest
  let s' := s.skip (q.taken + 1)
  let span : Span := ⟨s.pos, s'.pos⟩
  let spelling := String.ofList q.text
  let unclosed : List Error := if q.closed then [] else [⟨.unterminatedString spelling, span⟩]
  (⟨⟨.stringLiteral, spelling, span⟩, q.errors ++ unclosed⟩, s')

/-- The token under the cursor, which stands on no gap. -/
def readToken (s : Scanner) : Lexeme × Scanner :=
  match s.rest with
  | [] => (⟨.eofAt s.pos, []⟩, s)
  | '"' :: _ => s.readQuoted
  | _ =>
    let m := munch s.rest
    let s' := s.skip m.2
    let token : Token := ⟨m.1, String.ofList (s.rest.take m.2), ⟨s.pos, s'.pos⟩⟩
    (⟨token, if m.1 = .error then [⟨.illegalCharacter token.spelling, token.span⟩] else []⟩, s')

/-- The next token, after the gap in front of it. -/
def next (s : Scanner) : Lexeme × Scanner :=
  let gap := skipGap .between s.pos s.rest
  let (lexeme, s') := readToken ⟨gap.rest, gap.pos⟩
  ({ lexeme with errors := gap.errors ++ lexeme.errors }, s')

/-- The tokens up to the first end mark, as many as `n` at most. -/
def lexemesUpTo : Nat → Scanner → List Lexeme
  | 0, _ => []
  | n + 1, s => if s.next.1.token.kind = .eof then [s.next.1] else s.next.1 :: lexemesUpTo n s.next.2

/-- Every token with its errors, up to and with the first end mark: a text has no more tokens than
characters and that mark. -/
def lexemes (s : Scanner) : List Lexeme := lexemesUpTo (s.rest.length + 1) s

end Scanner

/-- The tokens of a text with their errors. -/
def lexemes (source : String) : List Lexeme := (Scanner.ofString source).lexemes

/-- The tokens of a text, the end mark included, and the errors met, in order. -/
def tokenize (source : String) : List Token × List Error :=
  ((lexemes source).map Lexeme.token, (lexemes source).flatMap Lexeme.errors)

/-- A scanner that remembers whether it has handed out the end of the text. -/
structure TokenStream where
  scanner : Scanner
  finished : Bool

namespace TokenStream

def ofString (source : String) : TokenStream := ⟨.ofString source, false⟩

/-- The next token, whatever was handed out before. -/
def read (t : TokenStream) : Lexeme × TokenStream := (t.scanner.next.1, { t with scanner := t.scanner.next.2 })

/-- The next token of the sequence, which ends after its first end mark. -/
def next? (t : TokenStream) : Option Lexeme × TokenStream :=
  if t.finished then (none, t)
  else (some t.read.1, { t.read.2 with finished := t.read.1.token.kind = .eof })

end TokenStream

end VCLang
