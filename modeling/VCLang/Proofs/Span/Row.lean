/-
Spans in reading order. A row is a list of spans of a text that stand one behind the other between two offsets; a
span encloses a row that begins and ends within it. What is said with offsets is then read off for places: spans of
a row begin before they end, lie in the span around them, and each ends before the next begins.

A place of the text lies on one of its lines, however many newlines stand in front of it.
-/
import VCLang.Proofs.Text.Line
namespace VCLang

/-! ## Reading order -/

namespace Position

/-- Reading order: by line, then by column. -/
instance : LE Position where
  le p q := p.line < q.line ∨ p.line = q.line ∧ p.column ≤ q.column

theorem le_def {p q : Position} : p ≤ q ↔ p.line < q.line ∨ p.line = q.line ∧ p.column ≤ q.column := Iff.rfl

/-- The order that positions are compared by. -/
theorem le_iff_compare {p q : Position} : p ≤ q ↔ p.compare q ≠ .gt := by
  rw [le_def, compare]
  rcases Nat.lt_trichotomy p.line q.line with h | h | h
  · rw [Nat.compare_eq_lt.2 h]
    exact ⟨fun _ => nofun, fun _ => .inl h⟩
  · rw [Nat.compare_eq_eq.2 h, Nat.compare_ne_gt]
    omega
  · rw [Nat.compare_eq_gt.2 h]
    exact ⟨fun _ => by omega, fun hne => absurd rfl hne⟩

instance (p q : Position) : Decidable (p ≤ q) := decidable_of_iff _ le_iff_compare.symm

theorem le_refl (p : Position) : p ≤ p := .inr ⟨rfl, Nat.le_refl _⟩

theorem Before.le {p q : Position} (h : p.Before q) : p ≤ q := by
  rw [le_def]
  unfold Before at h
  omega

end Position

/-- Places keep the order of offsets. -/
theorem placeAt_le {text : List Char} {i j : Nat} (h : i ≤ j) (hj : j ≤ text.length) :
    placeAt text i ≤ placeAt text j := by
  rcases Nat.lt_or_eq_of_le h with hlt | rfl
  · exact (placeAt_before hlt hj).le
  · exact Position.le_refl _

/-! ## Lines -/

namespace Span

/-- One span lies in another. -/
structure Within (s t : Span) : Prop where
  start : t.start ≤ s.start
  stop : s.stop ≤ t.stop

theorem Within.refl (s : Span) : s.Within s := ⟨Position.le_refl _, Position.le_refl _⟩

/-- A span goes from the place of an offset of a text to that of an offset that is not before it. -/
def PlacedIn (text : List Char) (s : Span) : Prop := ∃ i j, i ≤ j ∧ j ≤ text.length ∧ s = spanAt text i j

theorem PlacedIn.forward {text : List Char} {s : Span} (h : s.PlacedIn text) : s.start ≤ s.stop := by
  obtain ⟨i, j, hij, hj, rfl⟩ := h
  exact placeAt_le hij hj

end Span

/-- Spans of a text that stand one behind the other, between two offsets. -/
inductive Row (text : List Char) : Nat → List Span → Nat → Prop
  | nil {a b : Nat} : a ≤ b → Row text a [] b
  | cons {a b i j : Nat} {ss : List Span} : a ≤ i → i ≤ j → Row text j ss b → Row text a (spanAt text i j :: ss) b

namespace Row

variable {text : List Char} {a b c : Nat} {s : Span} {ss ts : List Span}

theorem le (h : Row text a ss b) : a ≤ b := by
  induction h with
  | nil h => exact h
  | cons h h' _ ih => omega

theorem mono_left {a' : Nat} (h : Row text a ss b) (ha : a' ≤ a) : Row text a' ss b := by
  cases h with
  | nil h => exact .nil (Nat.le_trans ha h)
  | cons hi hij hrest => exact .cons (Nat.le_trans ha hi) hij hrest

theorem mono_right {b' : Nat} (h : Row text a ss b) (hb : b ≤ b') : Row text a ss b' := by
  induction h with
  | nil h => exact .nil (Nat.le_trans h hb)
  | cons hi hij _ ih => exact .cons hi hij (ih hb)

/-- A row, and further on another one. -/
theorem append {d : Nat} (h : Row text a ss b) (hbc : b ≤ c) (h' : Row text c ts d) : Row text a (ss ++ ts) d := by
  induction h with
  | nil h => exact h'.mono_left (Nat.le_trans h hbc)
  | cons hi hij _ ih => exact .cons hi hij (ih hbc)

/-- One span more in front. -/
theorem push {j k : Nat} (hs : s = spanAt text a j) (haj : a ≤ j) (hjk : j ≤ k) (h : Row text k ss b) :
    Row text a (s :: ss) b := by
  rw [hs]
  exact .cons (Nat.le_refl a) haj (h.mono_left hjk)

/-- A span from one offset to another is a row between them. -/
theorem single (hs : s = spanAt text a b) (h : a ≤ b) : Row text a [s] b :=
  .push hs h (Nat.le_refl b) (.nil (Nat.le_refl b))

theorem exists_of_mem (h : Row text a ss b) (hs : s ∈ ss) : ∃ i j, a ≤ i ∧ i ≤ j ∧ j ≤ b ∧ s = spanAt text i j := by
  induction h with
  | nil => cases hs
  | @cons a b i j ss hi hij hrest ih =>
    have hj := hrest.le
    rcases List.mem_cons.1 hs with rfl | hs
    · exact ⟨i, j, hi, hij, hj, rfl⟩
    · obtain ⟨i', j', hi', hij', hj', rfl⟩ := ih hs
      exact ⟨i', j', by omega, hij', hj', rfl⟩

/-- Each span of a row ends before the next one begins. -/
theorem pairwise (h : Row text a ss b) (hb : b ≤ text.length) : ss.Pairwise fun s t => s.stop ≤ t.start := by
  induction h with
  | nil => exact .nil
  | cons hi hij hrest ih =>
    refine .cons (fun t ht => ?_) (ih hb)
    obtain ⟨i', j', hi', hij', hj', rfl⟩ := hrest.exists_of_mem ht
    exact placeAt_le hi' (by omega)

end Row

/-! ## Enclosed spans -/

namespace Span

variable {text : List Char} {s t : Span} {parts : List Span}

/-- A span of a text encloses others: they make a row between its ends. -/
def Encloses (text : List Char) (s : Span) (parts : List Span) : Prop :=
  ∃ i j, j ≤ text.length ∧ s = spanAt text i j ∧ Row text i parts j

/-- A span of a text with others in it, wherever these stand. -/
structure Holds (text : List Char) (s : Span) (parts : List Span) : Prop where
  placed : s.PlacedIn text
  within : ∀ t ∈ parts, t.PlacedIn text ∧ t.Within s

theorem Encloses.holds (h : s.Encloses text parts) : s.Holds text parts := by
  obtain ⟨i, j, hj, rfl, hrow⟩ := h
  refine ⟨⟨i, j, hrow.le, hj, rfl⟩, fun t ht => ?_⟩
  obtain ⟨i', j', hi', hij', hj', rfl⟩ := hrow.exists_of_mem ht
  exact ⟨⟨i', j', hij', by omega, rfl⟩, placeAt_le hi' (by omega), placeAt_le hj' hj⟩

theorem Encloses.pairwise (h : s.Encloses text parts) : parts.Pairwise fun s t => s.stop ≤ t.start := by
  obtain ⟨i, j, hj, -, hrow⟩ := h
  exact hrow.pairwise hj

/-- A span encloses itself alone. -/
theorem PlacedIn.encloses (h : s.PlacedIn text) : s.Encloses text [s] := by
  obtain ⟨i, j, hij, hj, rfl⟩ := h
  exact ⟨i, j, hj, rfl, .single rfl hij⟩

end Span

end VCLang
