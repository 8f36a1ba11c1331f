/-
Quoted strings: the text between the quotes with its escapes decoded. A string ends at its closing quote,
or unterminated before the end of its line. A backslash that begins no escape stands for itself and is an
error unless the line ends right after it.
-/
import VCLang.Diagnostic.Basic
namespace VCLang

/-- The character that an escape stands for, by the character after the backslash. -/
def unescape? : Char → Option Char
  | 'b' => some '\x08'
  | 'f' => some '\x0c'
  | 'n' => some '\n'
  | 'r' => some '\r'
  | 't' => some '\t'
  | '"' => some '"'
  | '\'' => some '\''
  | '\\' => some '\\'
  | _ => none

/-- What follows an opening quote: the decoded text, the characters taken, the closing quote included,
whether there was one, and the illegal escapes in order. -/
structure Quoted where
  text : List Char
  taken : Nat
  closed : Bool
  errors : List Error
  deriving Repr

namespace Quoted

/-- Puts a decoded character in front, which took `n` characters of the source. -/
def push (c : Char) (n : Nat) (q : Quoted) : Quoted := { q with text := c :: q.text, taken := q.taken + n }

/-- Puts errors in front. -/
def fault (es : List Error) (q : Quoted) : Quoted := { q with errors := es ++ q.errors }

/-- The errors of a backslash that begins no escape: an illegal escape at the backslash and the column
after it, unless the line ends there. -/
def stray (p : Position) (c : Char) : List Error :=
  if c = '\n' then [] else [⟨.illegalEscape (String.ofList ['\\', c]), ⟨p, p.right 2⟩⟩]

/-- Reads on after the opening quote; `p` is where the cursor stands. -/
def scan (p : Position) : List Char → Quoted
  | [] => ⟨[], 0, false, []⟩
  | '"' :: _ => ⟨[], 1, true, []⟩
  | '\n' :: _ => ⟨[], 0, false, []⟩
  | '\\' :: c :: cs =>
    match unescape? c with
    | some d => (scan ((p.advance '\\').advance c) cs).push d 2
    | none => ((scan (p.advance '\\') (c :: cs)).push '\\' 1).fault (stray p c)
  | c :: cs => (scan (p.advance c) cs).push c 1

/-- A string takes no more than there is. -/
theorem scan_taken_le (p : Position) (cs : List Char) : (scan p cs).taken ≤ cs.length := by
  fun_induction scan p cs <;> simp_all [push, fault]

end Quoted

end VCLang
