/-
Decimal numerals over ASCII digits: their value, and readings that are bounded by the width of a word.
-/
namespace VCLang

/-- The value of an ASCII digit. -/
def digitValue (c : Char) : Nat := c.toNat - '0'.toNat

/-- The value of a run of digits; leading zeros add nothing. -/
def decimalValue (cs : List Char) : Nat := cs.foldl (fun n c => 10 * n + digitValue c) 0

/-- The value of a non-empty run of ASCII digits that is at most `limit`. -/
def boundedDecimal? (limit : Nat) (cs : List Char) : Option Nat :=
  if cs ≠ [] ∧ cs.all Char.isDigit ∧ decimalValue cs ≤ limit then some (decimalValue cs) else none

theorem boundedDecimal?_eq_some_iff {limit n : Nat} {cs : List Char} :
    boundedDecimal? limit cs = some n ↔
      cs ≠ [] ∧ cs.all Char.isDigit ∧ decimalValue cs = n ∧ n ≤ limit := by
  unfold boundedDecimal?
  constructor
  · intro h
    split at h
    · rename_i hc
      cases h
      exact ⟨hc.1, hc.2.1, rfl, hc.2.2⟩
    · cases h
  · rintro ⟨hne, hd, rfl, hle⟩
    rw [if_pos ⟨hne, hd, hle⟩]

end VCLang
