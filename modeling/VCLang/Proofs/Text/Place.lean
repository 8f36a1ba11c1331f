/-
The place of an offset of a text, said without a cursor: the line is one more than the newlines before the
offset, the column one more than the width of the piece of its line in front of it. A cursor that starts at
line 1, column 1 and walks over a front of the text ends at the place of that offset, and places grow
strictly with offsets, so that no two offsets of a text share one.
-/
import Mathlib.Data.List.Induction
import VCLang.Text.Line
import VCLang.Text.Position
namespace VCLang

/-- What a text holds behind its last newline. -/
def lineTail (cs : List Char) : List Char := (cs.reverse.takeWhile (· ≠ '\n')).reverse

/-- The place of an offset of a text: the newlines before it, and the width of its line up to it. -/
def placeAt (text : List Char) (i : Nat) : Position :=
  ⟨1 + (text.take i).count '\n', 1 + visualWidth (lineTail (text.take i))⟩

/-- The span between two offsets of a text. -/
def spanAt (text : List Char) (b e : Nat) : Span := ⟨placeAt text b, placeAt text e⟩

/-! ## The walk of a cursor -/

theorem visualWidth_concat (cs : List Char) (c : Char) :
    visualWidth (cs ++ [c]) = if c = '\t' then (visualWidth cs / 8 + 1) * 8 else visualWidth cs + 1 := by
  simp [visualWidth, List.foldl_append]

theorem lineTail_concat (cs : List Char) (c : Char) :
    lineTail (cs ++ [c]) = if c = '\n' then [] else lineTail cs ++ [c] := by
  by_cases h : c = '\n' <;> simp [lineTail, h]

/-- A cursor that has walked over a text stands behind its newlines and behind its last line. -/
theorem after_first (cs : List Char) :
    Position.first.after cs = ⟨1 + cs.count '\n', 1 + visualWidth (lineTail cs)⟩ := by
  induction cs using List.reverseRecOn with
  | nil => rfl
  | append_singleton cs c ih =>
    rw [Position.after_append, ih, Position.after_cons, Position.after_nil, Position.advance, lineTail_concat]
    by_cases hn : c = '\n'
    · subst hn
      rw [if_pos rfl, if_pos rfl, List.count_append]
      rfl
    · have hc : (cs ++ [c]).count '\n' = cs.count '\n' := by
        rw [List.count_append, List.count_singleton, if_neg (by simpa using hn), Nat.add_zero]
      rw [if_neg hn, if_neg hn, hc, visualWidth_concat]
      by_cases ht : c = '\t'
      · rw [if_pos ht, if_pos ht, Position.tabStop, Nat.add_sub_cancel_left,
          Nat.add_comm 1 ((visualWidth (lineTail cs) / 8 + 1) * 8)]
      · rw [if_neg ht, if_neg ht, Nat.add_assoc]

theorem placeAt_eq_after (text : List Char) (i : Nat) : placeAt text i = Position.first.after (text.take i) :=
  (after_first _).symm

/-- A cursor goes from the place of an offset to that of a later one over what lies between. -/
theorem placeAt_add (text : List Char) (i n : Nat) :
    placeAt text (i + n) = (placeAt text i).after ((text.drop i).take n) := by
  rw [placeAt_eq_after, placeAt_eq_after, ← Position.after_append, List.take_add]

/-! ## Order -/

namespace Position

/-- Whether one position comes before another in reading order. -/
def Before (p q : Position) : Prop := p.line < q.line ∨ p.line = q.line ∧ p.column < q.column

theorem Before.trans {p q r : Position} (h : p.Before q) (h' : q.Before r) : p.Before r := by
  unfold Before at *
  omega

theorem Before.ne {p q : Position} (h : p.Before q) : p ≠ q := by
  rintro rfl
  unfold Before at h
  omega

/-- Every character moves the cursor on: a tab to a stop that lies further right. -/
theorem before_advance (p : Position) (c : Char) : p.Before (p.advance c) := by
  unfold Before advance
  split
  · exact .inl (Nat.lt_succ_self _)
  · split
    · refine .inr ⟨rfl, ?_⟩
      simp only [tabStop]
      omega
    · exact .inr ⟨rfl, Nat.lt_succ_self _⟩

theorem before_after (p : Position) {cs : List Char} (h : cs ≠ []) : p.Before (p.after cs) := by
  induction cs generalizing p with
  | nil => exact absurd rfl h
  | cons c cs ih =>
    rw [after_cons]
    rcases cs with _ | ⟨d, cs⟩
    · exact before_advance p c
    · exact (before_advance p c).trans (ih _ (List.cons_ne_nil d cs))

end Position

/-- Places grow strictly with offsets. -/
theorem placeAt_before {text : List Char} {i j : Nat} (h : i < j) (hj : j ≤ text.length) :
    (placeAt text i).Before (placeAt text j) := by
  obtain ⟨n, rfl⟩ := Nat.exists_eq_add_of_lt h
  rw [Nat.add_assoc, placeAt_add]
  refine Position.before_after _ fun hnil => ?_
  have := congrArg List.length hnil
  simp only [List.length_take, List.length_drop, List.length_nil] at this
  omega

end VCLang
