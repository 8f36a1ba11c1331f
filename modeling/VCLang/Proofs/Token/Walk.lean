/-
The walk of a scanner without its fuel. A step reads the end mark where nothing but a gap is left, and otherwise
leaves a shorter text; so a walk has one equation, whatever fuel it was given: its first lexeme, and behind it the
walk from where the scanner stands then.
-/
import VCLang.Proofs.Token.Lossless
namespace VCLang

namespace Scanner

variable {s s' s'' : Scanner}

/-- A scanner reads on: the characters between two of its places are those it has moved over. -/
def Moves (s s' : Scanner) : Prop := ∃ ds, s.rest = ds ++ s'.rest ∧ s'.pos = s.pos.after ds

theorem Moves.refl (s : Scanner) : s.Moves s := ⟨[], rfl, rfl⟩

theorem Moves.trans (h : s.Moves s') (h' : s'.Moves s'') : s.Moves s'' := by
  obtain ⟨ds, hrest, hpos⟩ := h
  obtain ⟨ds', hrest', hpos'⟩ := h'
  exact ⟨ds ++ ds', by rw [hrest, hrest', List.append_assoc], by rw [hpos', hpos, Position.after_append]⟩

theorem moves_skip (s : Scanner) (n : Nat) : s.Moves (s.skip n) := ⟨s.rest.take n, (List.take_append_drop ..).symm, rfl⟩

/-! ## One step -/

/-- Where a scanner stands behind the gap in front of it. -/
def behindGap (s : Scanner) : Scanner :=
  ⟨(skipGap .between s.pos s.rest).rest, (skipGap .between s.pos s.rest).pos⟩

theorem next_eq (s : Scanner) : s.next = (⟨s.behindGap.readToken.1.token,
    (skipGap .between s.pos s.rest).errors ++ s.behindGap.readToken.1.errors⟩, s.behindGap.readToken.2) := rfl

theorem moves_behindGap (s : Scanner) : s.Moves s.behindGap := skipGap_spec ..

/-- The token that is no string: the longest one of its text, or one illegal character. -/
def readMunched (s : Scanner) : Lexeme × Scanner :=
  let m := munch s.rest
  let token : Token := ⟨m.1, String.ofList (s.rest.take m.2), ⟨s.pos, (s.skip m.2).pos⟩⟩
  (⟨token, if m.1 = .error then [⟨.illegalCharacter token.spelling, token.span⟩] else []⟩, s.skip m.2)

/-- How a token is read, by what it begins with. -/
theorem readToken_cases (s : Scanner) :
    (s.rest = [] ∧ s.readToken = (⟨.eofAt s.pos, []⟩, s)) ∨
    (∃ cs, s.rest = '"' :: cs ∧ s.readToken = s.readQuoted) ∨
    (s.rest ≠ [] ∧ s.rest.head? ≠ some '"' ∧ s.readToken = s.readMunched) := by
  unfold readToken
  split
  · rename_i hnil
    exact .inl ⟨hnil, rfl⟩
  · rename_i cs hquote
    exact .inr (.inl ⟨cs, hquote, rfl⟩)
  · rename_i hnil hquote
    refine .inr (.inr ⟨fun h => hnil h, fun h => ?_, rfl⟩)
    obtain ⟨cs, hcs⟩ := List.head?_eq_some_iff.1 h
    exact hquote cs hcs

theorem readToken_quoted {cs : List Char} (h : s.rest = '"' :: cs) : s.readToken = s.readQuoted := by
  unfold readToken
  rw [h]
  rfl

theorem readToken_munched (h : s.rest ≠ []) (hquote : s.rest.head? ≠ some '"') : s.readToken = s.readMunched := by
  rcases s.readToken_cases with ⟨hnil, -⟩ | ⟨cs, hcs, -⟩ | ⟨-, -, hread⟩
  · exact absurd hnil h
  · exact absurd (congrArg List.head? hcs) hquote
  · exact hread

theorem moves_readToken (s : Scanner) : s.Moves s.readToken.2 := by
  rcases s.readToken_cases with ⟨-, hread⟩ | ⟨cs, -, hread⟩ | ⟨-, -, hread⟩ <;> rw [hread]
  · exact .refl s
  · exact s.moves_skip _
  · exact s.moves_skip _

theorem moves_next (s : Scanner) : s.Moves s.next.2 := s.moves_behindGap.trans (moves_readToken _)

/-- Where text is left, the token is not the end mark and takes a character at least. -/
theorem readToken_cons (h : s.rest ≠ []) :
    s.readToken.1.token.kind ≠ .eof ∧ s.readToken.2.rest.length < s.rest.length := by
  have hpos := List.length_pos_iff.2 h
  rcases s.readToken_cases with ⟨hnil, -⟩ | ⟨cs, -, hread⟩ | ⟨-, -, hread⟩
  · exact absurd hnil h
  · rw [hread]
    refine ⟨TokenKind.noConfusion, ?_⟩
    simp only [readQuoted, skip, List.length_drop]
    omega
  · have hmunch := munch_pos h
    rw [hread]
    refine ⟨(munch_kind h).2, ?_⟩
    simp only [readMunched, skip, List.length_drop]
    omega

/-- Behind a gap that leads to the end of the text stands the end mark. -/
theorem next_of_nil (h : s.behindGap.rest = []) :
    s.next = (⟨.eofAt s.behindGap.pos, (skipGap .between s.pos s.rest).errors⟩, ⟨[], s.behindGap.pos⟩) := by
  have hread : s.behindGap.readToken = (⟨.eofAt s.behindGap.pos, []⟩, ⟨[], s.behindGap.pos⟩) := by
    rw [show s.behindGap = ⟨[], s.behindGap.pos⟩ by rw [← h]]
    rfl
  rw [next_eq, hread, List.append_nil]

/-- The end mark is read where nothing but a gap is left, and there alone. -/
theorem next_eof_iff (s : Scanner) : s.next.1.token.kind = .eof ↔ s.behindGap.rest = [] := by
  constructor
  · intro hkind
    by_contra hrest
    exact (readToken_cons hrest).1 hkind
  · intro hrest
    rw [next_of_nil hrest]
    rfl

theorem length_next_lt (h : s.next.1.token.kind ≠ .eof) : s.next.2.rest.length < s.rest.length := by
  have hrest : s.behindGap.rest ≠ [] := fun hnil => h (s.next_eof_iff.2 hnil)
  exact Nat.lt_of_lt_of_le (readToken_cons hrest).2 (skipGap_length_le ..)

/-! ## All steps -/

/-- Fuel beyond the characters that are left changes nothing. -/
theorem lexemesUpTo_of_lt {n : Nat} (h : s.rest.length < n) : lexemesUpTo n s = s.lexemes := by
  suffices key : ∀ (m n : Nat) (s : Scanner), s.rest.length < m → s.rest.length < n →
      lexemesUpTo n s = lexemesUpTo m s from key _ _ s (Nat.lt_succ_self _) h
  intro m
  induction m with
  | zero => exact fun n s hm => absurd hm (Nat.not_lt_zero _)
  | succ m ih =>
    intro n s hm hn
    obtain ⟨n, rfl⟩ := Nat.exists_eq_succ_of_ne_zero (Nat.ne_zero_of_lt hn)
    rw [lexemesUpTo, lexemesUpTo]
    by_cases heof : s.next.1.token.kind = .eof
    · rw [if_pos heof, if_pos heof]
    · have hshorter := length_next_lt heof
      rw [if_neg heof, if_neg heof, ih n s.next.2 (by omega) (by omega)]

/-- Where only a gap is left, the end mark is all there is. -/
theorem lexemes_of_eof (h : s.next.1.token.kind = .eof) : s.lexemes = [s.next.1] := if_pos h

/-- The first lexeme of a walk, and those of the walk behind it. -/
theorem lexemes_of_not_eof (h : s.next.1.token.kind ≠ .eof) : s.lexemes = s.next.1 :: s.next.2.lexemes := by
  rw [← lexemesUpTo_of_lt (length_next_lt h)]
  exact if_neg h

/-- A walk depends on its first step alone. -/
theorem lexemes_congr (h : s.next = s'.next) : s.lexemes = s'.lexemes := by
  by_cases heof : s.next.1.token.kind = .eof
  · rw [lexemes_of_eof heof, @lexemes_of_eof s' (h ▸ heof), h]
  · rw [lexemes_of_not_eof heof, @lexemes_of_not_eof s' (h ▸ heof), h]

/-- Induction along a walk: what holds where the end mark is next, and holds of a scanner if it holds behind its first
token, holds of every scanner. -/
@[elab_as_elim]
theorem walk_induction {motive : Scanner → Prop} (eof : ∀ s : Scanner, s.next.1.token.kind = .eof → motive s)
    (token : ∀ s : Scanner, s.next.1.token.kind ≠ .eof → motive s.next.2 → motive s) (s : Scanner) : motive s := by
  induction h : s.rest.length using Nat.strongRecOn generalizing s with
  | ind n ih =>
    subst h
    by_cases heof : s.next.1.token.kind = .eof
    · exact eof s heof
    · exact token s heof (ih _ (length_next_lt heof) _ rfl)

/-- What an invariant of the places of a walk gives for the lexeme at each of them holds of all its lexemes. -/
theorem forall_lexemes {I : Scanner → Prop} {P : Lexeme → Prop}
    (hstep : ∀ s : Scanner, I s → s.next.1.token.kind ≠ .eof → I s.next.2) (h : ∀ s : Scanner, I s → P s.next.1)
    (s : Scanner) (hs : I s) : ∀ l ∈ s.lexemes, P l := by
  induction s using walk_induction with
  | eof s heof =>
    rw [lexemes_of_eof heof, List.forall_mem_singleton]
    exact h s hs
  | token s heof ih =>
    rw [lexemes_of_not_eof heof, List.forall_mem_cons]
    exact ⟨h s hs, ih (hstep s hs heof)⟩

end Scanner

end VCLang
