/-
The characters with the Unicode property White_Space, and the removal of a trailing run of them.
-/
namespace VCLang

/-- The code points with the property White_Space, as inclusive ranges in increasing order. -/
def whiteSpaceRanges : List (Nat × Nat) :=
  [(0x09, 0x0d), (0x20, 0x20), (0x85, 0x85), (0xa0, 0xa0), (0x1680, 0x1680), (0x2000, 0x200a),
    (0x2028, 0x2029), (0x202f, 0x202f), (0x205f, 0x205f), (0x3000, 0x3000)]

/-- Whether a character has the property White_Space. -/
def isWhiteSpace (c : Char) : Bool :=
  whiteSpaceRanges.any fun r => r.1 ≤ c.toNat && c.toNat ≤ r.2

/-- A list without its longest tail of elements that satisfy `p`. -/
def dropEndWhile {α : Type} (p : α → Bool) (xs : List α) : List α := (xs.reverse.dropWhile p).reverse

example : (whiteSpaceRanges.map fun r => r.2 - r.1 + 1).sum = 25 := by decide

example : whiteSpaceRanges.Pairwise fun r s => r.2 < s.1 := by decide

end VCLang
