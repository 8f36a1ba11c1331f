/-
A cursor with words of 32 bits against the places of a text. Where it has moved over some characters it shows the next
one and those ahead, and its words are what words can keep of the place of that offset; so it shows the place itself as
long as the lines and columns of the text fit into words.
-/
import Mathlib.Logic.Function.Iterate
import VCLang.Proofs.Text.Place
import VCLang.Text.Cursor
namespace VCLang

/-! ## Words -/

namespace Position

/-- A line and a column fit into words of 32 bits. -/
def Fits (p : Position) : Prop := p.line < UInt32.size ∧ p.column < UInt32.size

theorem Fits.wrapped {p : Position} (h : p.Fits) : p.wrapped = p := by
  rw [Position.wrapped, Nat.mod_eq_of_lt h.1, Nat.mod_eq_of_lt h.2]

end Position

/-- The places of a text all fit into words of 32 bits. -/
def Fits (text : List Char) : Prop := ∀ i ≤ text.length, (placeAt text i).Fits

namespace Cursor

variable {c : Cursor} {text : List Char} {i : Nat}

/-- A cursor stands at an offset of a text. -/
structure At (c : Cursor) (text : List Char) (i : Nat) : Prop where
  current : c.current = text[i]?
  ahead : ∀ n, c.stream.peek? (n + 1) = text[i + n + 1]?
  position : c.position = (placeAt text i).wrapped

theorem at_ofString (source : String) : (ofString source).At source.toList 0 := by
  have hstream := (CharStream.ofString source).peek?_next?
  refine ⟨(CharStream.ofString source).next?_fst, fun n => ?_, rfl⟩
  rw [Nat.zero_add]
  exact hstream n

theorem stream_advance (c : Cursor) : c.advance.stream = c.stream.next?.2 ∧ c.advance.current = c.stream.next?.1 := by
  unfold advance
  split <;> exact ⟨rfl, rfl⟩

/-- The words of a cursor keep as much of its place behind a step as before. -/
theorem position_advance {p : Position} {x : Char} (hx : c.current = some x) (hp : c.position = p.wrapped)
    (hcolumn : 1 ≤ p.column) : c.advance.position = (p.advance x).wrapped := by
  obtain ⟨hline, hcol⟩ := (Position.mk.injEq ..).mp hp
  unfold advance Position.advance
  split
  · rename_i hnone
    cases hx.symm.trans hnone
  · rename_i hnewline
    cases hx.symm.trans hnewline
    rw [if_pos rfl]
    simp [position, Position.wrapped, UInt32.toNat_add, hline]
  · rename_i htab
    cases hx.symm.trans htab
    simp [position, Position.wrapped, Position.tabStop, UInt32.toNat_add, UInt32.toNat_mul, UInt32.toNat_div,
      UInt32.toNat_sub, UInt32.size, hline, hcol]
    omega
  · rename_i y hn ht hy
    cases hx.symm.trans hy
    rw [if_neg hn, if_neg ht]
    simp [position, Position.wrapped, UInt32.toNat_add, hline, hcol]

theorem At.advance (h : c.At text i) (hi : i < text.length) : c.advance.At text (i + 1) := by
  obtain ⟨hcurrent, hahead, hposition⟩ := h
  have hx : text[i]? = some text[i] := List.getElem?_eq_getElem hi
  have hplace : placeAt text (i + 1) = (placeAt text i).advance text[i] := by
    rw [placeAt_add, List.drop_eq_getElem_cons hi]
    rfl
  obtain ⟨hstream, hnext⟩ := c.stream_advance
  refine ⟨?_, fun n => ?_, ?_⟩
  · rw [hnext, CharStream.next?_fst]
    exact hahead 0
  · rw [hstream, CharStream.peek?_next?, hahead]
    congr 1
    omega
  · rw [hplace]
    exact position_advance (hcurrent.trans hx) hposition (Nat.le_add_right 1 _)

/-- A cursor that has moved over some characters of a text stands at that offset. -/
theorem at_iterate (source : String) {i : Nat} (hi : i ≤ source.toList.length) :
    (advance^[i] (ofString source)).At source.toList i := by
  induction i with
  | zero => exact at_ofString source
  | succ i ih =>
    rw [Function.iterate_succ_apply']
    exact (ih (by omega)).advance hi

end Cursor

end VCLang
