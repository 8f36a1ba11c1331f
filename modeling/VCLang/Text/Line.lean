/-
The lines of a source text, by number, and the screen width of a piece of a line.
-/
import VCLang.Text.WhiteSpace
namespace VCLang

/-- The lines of a text: it is cut at every newline, so that there is always one line at least. -/
def lines : List Char → List (List Char)
  | [] => [[]]
  | c :: cs =>
    if c = '\n' then [] :: lines cs
    else
      match lines cs with
      | [] => [[c]]
      | l :: ls => (c :: l) :: ls

/-- The text of a line, counted from 1, without the carriage returns that end it. -/
def lineAt (source : List Char) : Nat → Option (List Char)
  | 0 => none
  | n + 1 => (lines source)[n]?.map (dropEndWhile (· = '\r'))

/-- The column reached after a piece of a line, counted from 0, with tab stops every eight columns. -/
def visualWidth (cs : List Char) : Nat :=
  cs.foldl (fun width c => if c = '\t' then (width / 8 + 1) * 8 else width + 1) 0

end VCLang
