/-
A token: its kind, its spelling and where it stands.
-/
import VCLang.Text.Position
import VCLang.Diagnostic.Basic
import VCLang.Token.Kind
namespace VCLang

structure Token where
  kind : TokenKind
  spelling : String
  span : Span
  deriving DecidableEq, Repr, Inhabited

namespace Token

/-- The printed form; the spelling stands as it is, without escapes. -/
def text (t : Token) : String :=
  s!"Kind = {t.kind.name}, spelling = \"{t.spelling}\", position = {t.span.text}"

/-- The end of the text. -/
def eofAt (p : Position) : Token := ⟨.eof, TokenKind.eof.spelling, ⟨p, p⟩⟩

end Token

/-- A token with the errors that were met on the way to its end, in order. -/
structure Lexeme where
  token : Token
  errors : List Error
  deriving DecidableEq, Repr

end VCLang
