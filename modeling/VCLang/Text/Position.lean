/-
Places in a source text: line and column pairs, the walk of a cursor over characters with tab stops
every eight columns, and half-open spans with their printed form `1(3)..1(7)`.
-/
namespace VCLang

/-- A line and a column, both counted from 1. They are numbers without a bound here; what is kept of them in words of
32 bits is `Position.wrapped`, and a cursor that holds such words is in `Text/Cursor`. -/
structure Position where
  line : Nat
  column : Nat
  deriving DecidableEq, Repr, Inhabited

namespace Position

/-- Where every text begins. -/
def first : Position := ⟨1, 1⟩

/-- The first column past a tab that starts in `column`: tab stops lie eight columns apart. -/
def tabStop (column : Nat) : Nat := ((column - 1) / 8 + 1) * 8 + 1

/-- The position after one character. -/
def advance (p : Position) (c : Char) : Position :=
  if c = '\n' then ⟨p.line + 1, 1⟩
  else if c = '\t' then ⟨p.line, tabStop p.column⟩
  else ⟨p.line, p.column + 1⟩

/-- The position after a run of characters. -/
def after (p : Position) (cs : List Char) : Position := cs.foldl advance p

/-- The position `n` columns further on the same line. -/
def right (p : Position) (n : Nat) : Position := ⟨p.line, p.column + n⟩

@[simp] theorem after_nil (p : Position) : p.after [] = p := rfl

@[simp] theorem after_cons (p : Position) (c : Char) (cs : List Char) :
    p.after (c :: cs) = (p.advance c).after cs := rfl

theorem after_append (p : Position) (cs ds : List Char) : p.after (cs ++ ds) = (p.after cs).after ds :=
  List.foldl_append

/-- Positions are ordered by line, then by column. -/
def compare (p q : Position) : Ordering :=
  match Ord.compare p.line q.line with
  | .eq => Ord.compare p.column q.column
  | o => o

end Position

/-- A half-open range of a text: `stop` is one past the last character. -/
structure Span where
  start : Position
  stop : Position
  deriving DecidableEq, Repr, Inhabited

namespace Span

/-- The span of what has no source text. -/
def dummy : Span := ⟨⟨0, 0⟩, ⟨0, 0⟩⟩

/-- From the start of one span to the end of another. -/
def join (s t : Span) : Span := ⟨s.start, t.stop⟩

/-- The printed form: `line(column)..line(column)`. -/
def text (s : Span) : String :=
  s!"{s.start.line}({s.start.column})..{s.stop.line}({s.stop.column})"

end Span

end VCLang
