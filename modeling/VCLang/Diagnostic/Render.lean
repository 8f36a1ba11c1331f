/-
A message shown with the line it is about: the line without its indentation, and under it a caret that
points to the column of the message.
-/
import VCLang.Text.Line
import VCLang.Diagnostic.Basic
namespace VCLang

/-- A space or a tab. -/
def isIndent (c : Char) : Bool := c = ' ' || c = '\t'

/-- How many dashes stand before the caret under a line: from the first column shown to the column of
the message, and none if the message lies in the indentation. -/
def caretIndent (line : List Char) (column : Nat) : Nat :=
  let hidden := visualWidth (line.takeWhile isIndent)
  max hidden (column - 1) - hidden

/-- The three rows under the heading of a message: a margin, the numbered line, the caret. -/
def excerpt (number column : Nat) (line : List Char) : String :=
  let margin := String.ofList (List.replicate ((toString number).length + 1) ' ') ++ "|"
  let shown := String.ofList (dropEndWhile isWhiteSpace (line.dropWhile isIndent))
  let dashes := String.ofList (List.replicate (caretIndent line column) '-')
  s!"{margin}\n{number} | {shown}\n{margin} {dashes}^\n"

/-- A message, the file it is about and, if the source has the line, the line. -/
def Diagnostic.render (d : Diagnostic) (source file : String) : String :=
  let heading := s!"{d.text}\n-> {file}\n"
  match lineAt source.toList d.position.start.line with
  | none => heading
  | some line => heading ++ excerpt d.position.start.line d.position.start.column line

end VCLang
