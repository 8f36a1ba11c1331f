/-
The lines of a text that is put together from pieces, and the line that holds an offset: what the text holds behind
its last newline before the offset, and what it holds from there up to the next one. A tab apart, a character widens
its line by one column.
-/
import VCLang.Proofs.Text.Place
namespace VCLang

/-! ## Lines -/

/-- The walk that a character stops goes no further, whatever stands behind it. -/
theorem takeWhile_append_cons {α : Type} {p : α → Bool} {x : α} (h : ¬ p x) (xs ys : List α) :
    (xs ++ x :: ys).takeWhile p = xs.takeWhile p := by
  induction xs with
  | nil => rw [List.nil_append, List.takeWhile_cons_of_neg h, List.takeWhile_nil]
  | cons y xs ih => rw [List.cons_append, List.takeWhile_cons, List.takeWhile_cons, ih]

end VCLang
