/-
What stands between tokens: blanks, comments to the end of the line, and comments in `/* */`. A block
comment that is still open at the end of the text is an error.
-/
import VCLang.Diagnostic.Basic
namespace VCLang

/-- The characters that separate tokens: space, tab, newline, carriage return and form feed. -/
def isBlank (c : Char) : Bool := c = ' ' || c = '\t' || c = '\n' || c = '\r' || c = '\x0c'

/-- Where a walk over a gap stands. -/
inductive GapMode where
  | between
  | inLine
  /-- In a block comment that was opened at a place. -/
  | inBlock (opened : Position)

/-- The end of a gap: what follows, where, and what was wrong. -/
structure Gap where
  rest : List Char
  pos : Position
  errors : List Error
  deriving Repr

/-- An open comment is reported at its first two characters. -/
def openComment (opened : Position) : Error := ⟨.unterminatedComment, ⟨opened, opened.right 2⟩⟩

/-- Walks over a gap. A line comment ends with its newline; a block comment ends with the first `*/`
after its opening. -/
def skipGap : GapMode → Position → List Char → Gap
  | .inBlock opened, p, [] => ⟨[], p, [openComment opened]⟩
  | .inBlock _, p, '*' :: '/' :: cs => skipGap .between (p.right 2) cs
  | .inBlock opened, p, c :: cs => skipGap (.inBlock opened) (p.advance c) cs
  | .inLine, p, [] => ⟨[], p, []⟩
  | .inLine, p, c :: cs =>
    if c = '\n' then skipGap .between (p.advance c) cs else skipGap .inLine (p.advance c) cs
  | .between, p, [] => ⟨[], p, []⟩
  | .between, p, '/' :: '/' :: cs => skipGap .inLine (p.right 2) cs
  | .between, p, '/' :: '*' :: cs => skipGap (.inBlock p) (p.right 2) cs
  | .between, p, c :: cs => if isBlank c then skipGap .between (p.advance c) cs else ⟨c :: cs, p, []⟩

/-- A gap is a part of the text, and its end is where the cursor is after that part. -/
theorem skipGap_spec (m : GapMode) (p : Position) (cs : List Char) :
    ∃ ds, cs = ds ++ (skipGap m p cs).rest ∧ (skipGap m p cs).pos = p.after ds := by
  fun_induction skipGap m p cs with
  | case1 => exact ⟨[], rfl, rfl⟩
  | case2 p opened cs ih =>
    obtain ⟨ds, h, hp⟩ := ih
    refine ⟨'*' :: '/' :: ds, ?_, ?_⟩
    · rw [List.cons_append, List.cons_append, ← h]
    · rw [hp]; rfl
  | case3 p opened c cs _ ih =>
    obtain ⟨ds, h, hp⟩ := ih
    exact ⟨c :: ds, by rw [List.cons_append, ← h], by rw [hp]; rfl⟩
  | case4 => exact ⟨[], rfl, rfl⟩
  | case5 p cs ih =>
    obtain ⟨ds, h, hp⟩ := ih
    exact ⟨'\n' :: ds, by rw [List.cons_append, ← h], by rw [hp]; rfl⟩
  | case6 p c cs _ ih =>
    obtain ⟨ds, h, hp⟩ := ih
    exact ⟨c :: ds, by rw [List.cons_append, ← h], by rw [hp]; rfl⟩
  | case7 => exact ⟨[], rfl, rfl⟩
  | case8 p cs ih =>
    obtain ⟨ds, h, hp⟩ := ih
    refine ⟨'/' :: '/' :: ds, ?_, ?_⟩
    · rw [List.cons_append, List.cons_append, ← h]
    · rw [hp]; rfl
  | case9 p cs ih =>
    obtain ⟨ds, h, hp⟩ := ih
    refine ⟨'/' :: '*' :: ds, ?_, ?_⟩
    · rw [List.cons_append, List.cons_append, ← h]
    · rw [hp]; rfl
  | case10 p c cs _ _ _ ih =>
    obtain ⟨ds, h, hp⟩ := ih
    exact ⟨c :: ds, by rw [List.cons_append, ← h], by rw [hp]; rfl⟩
  | case11 => exact ⟨[], rfl, rfl⟩

/-- Skipping never lengthens the text. -/
theorem skipGap_length_le (m : GapMode) (p : Position) (cs : List Char) :
    (skipGap m p cs).rest.length ≤ cs.length := by
  obtain ⟨ds, h, -⟩ := skipGap_spec m p cs
  have := congrArg List.length h
  simp only [List.length_append] at this
  omega

end VCLang
