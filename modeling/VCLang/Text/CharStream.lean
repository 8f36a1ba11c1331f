/-
A text with a place in it: characters are taken one at a time, and any number of them can be looked at
ahead of that.
-/
namespace VCLang

/-- The characters that are still to be taken. -/
structure CharStream where
  chars : List Char
  deriving Repr

namespace CharStream

def ofString (source : String) : CharStream := ⟨source.toList⟩

/-- The next character; at the end there is none, however often it is asked for. -/
def next? (s : CharStream) : Option Char × CharStream := (s.chars.head?, ⟨s.chars.tail⟩)

/-- The `n`-th character after the one taken last, counted from 1. -/
def peek? (s : CharStream) : Nat → Option Char
  | 0 => none
  | n + 1 => s.chars[n]?

/-- Taking a character gives the one that a look ahead showed. -/
theorem next?_fst (s : CharStream) : s.next?.1 = s.peek? 1 := by
  cases h : s.chars <;> simp [next?, peek?, h]

/-- A look ahead after a character is taken is a look one further before it. -/
theorem peek?_next? (s : CharStream) (n : Nat) : s.next?.2.peek? (n + 1) = s.peek? (n + 2) := by
  cases h : s.chars <;> simp [next?, peek?, h]

end CharStream

end VCLang
