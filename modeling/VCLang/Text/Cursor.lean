/-
The cursor of a scanner: the character it stands on, what can be looked at ahead of it, and its line and column. These
are words of 32 bits, which wrap around.
-/
import VCLang.Text.CharStream
import VCLang.Text.Position
namespace VCLang

structure Cursor where
  /-- What follows the character under the cursor. -/
  stream : CharStream
  /-- The character under the cursor; there is none at the end of the text. -/
  current : Option Char
  line : UInt32
  column : UInt32

namespace Cursor

/-- At the beginning of a text. -/
def ofString (source : String) : Cursor :=
  let read := (CharStream.ofString source).next?
  ⟨read.2, read.1, 1, 1⟩

/-- Moves past the character under the cursor. -/
def advance (c : Cursor) : Cursor :=
  let read := c.stream.next?
  match c.current with
  | none => ⟨read.2, read.1, c.line, c.column⟩
  | some '\n' => ⟨read.2, read.1, c.line + 1, 1⟩
  | some '\t' => ⟨read.2, read.1, c.line, ((c.column - 1) / 8 + 1) * 8 + 1⟩
  | some _ => ⟨read.2, read.1, c.line, c.column + 1⟩

/-- Where the cursor stands. -/
def position (c : Cursor) : Position := ⟨c.line.toNat, c.column.toNat⟩

end Cursor

namespace Position

/-- What two words of 32 bits keep of a position. -/
def wrapped (p : Position) : Position := ⟨p.line % UInt32.size, p.column % UInt32.size⟩

end Position

/-- What words of 32 bits keep of a span. -/
def Span.wrapped (s : Span) : Span := ⟨s.start.wrapped, s.stop.wrapped⟩

end VCLang
