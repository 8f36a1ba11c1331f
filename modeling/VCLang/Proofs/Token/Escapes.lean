/-
Escapes, said without a walk. Whether a backslash or a quote in a string stands for itself is decided by how many
backslashes stand right in front of it: behind an even number it does, behind an odd number it belongs to an escape. So
a backslash behind an even number of backslashes begins an escape or is stray, and a quote behind an even number closes
the string. The walk over a string finds just these.
-/
import VCLang.Proofs.Text.Place
import VCLang.Token.Quoted
namespace VCLang

/-- Whether an odd number of backslashes in a row stands right in front of an offset. -/
def IsEscaped (text : List Char) (i : Nat) : Prop := ((text.take i).reverse.takeWhile (· = '\\')).length % 2 = 1

instance (text : List Char) (i : Nat) : Decidable (IsEscaped text i) := inferInstanceAs (Decidable (_ = 1))

/-- The fault at an offset, if a stray backslash stands there: one that no backslash escapes, that begins no escape, and
that does not end its line. It is quoted with the character behind it. -/
def strayAt? (text : List Char) (i : Nat) : Option Error :=
  match text.drop i with
  | '\\' :: c :: _ =>
    if ¬ IsEscaped text i ∧ unescape? c = none ∧ c ≠ '\n' then
      some ⟨.illegalEscape (String.ofList ['\\', c]), ⟨placeAt text i, (placeAt text i).right 2⟩⟩
    else none
  | _ => none

/-- The faults of the stray backslashes between two offsets, in order. -/
def strays (text : List Char) (b e : Nat) : List Error := (List.range' b (e - b)).filterMap (strayAt? text)

/-- Whether a quote that no backslash escapes stands at an offset. -/
def ClosesAt (text : List Char) (i : Nat) : Prop := text[i]? = some '"' ∧ ¬ IsEscaped text i

instance (text : List Char) (i : Nat) : Decidable (ClosesAt text i) := inferInstanceAs (Decidable (_ ∧ _))

variable {text cs : List Char} {c : Char} {i : Nat}

theorem drop_succ_of_drop (h : text.drop i = c :: cs) : text.drop (i + 1) = cs := by
  rw [← List.drop_drop, h, List.drop_one, List.tail_cons]

theorem getElem?_of_drop (h : text.drop i = c :: cs) : text[i]? = some c := by
  rw [← List.head?_drop, h, List.head?_cons]

/-- One character is escaped just if a backslash stands in front of it that is not. -/
theorem isEscaped_succ (h : text.drop i = c :: cs) : IsEscaped text (i + 1) ↔ c = '\\' ∧ ¬ IsEscaped text i := by
  have htake : text.take (i + 1) = text.take i ++ [c] := by
    rw [List.take_add_one, getElem?_of_drop h]
    rfl
  unfold IsEscaped
  rw [htake, List.reverse_append, List.reverse_singleton, List.singleton_append, List.takeWhile_cons]
  by_cases hc : c = '\\'
  · simp only [hc, decide_true, if_true, List.length_cons, true_and]
    omega
  · simp [hc]

theorem strayAt?_of_ne (h : text.drop i = c :: cs) (hc : c ≠ '\\') : strayAt? text i = none := by
  unfold strayAt?
  split
  · rename_i hdrop
    rw [h] at hdrop
    exact absurd (List.cons.inj hdrop).1 hc
  · rfl

theorem strayAt?_of_isEscaped (h : IsEscaped text i) : strayAt? text i = none := by
  unfold strayAt?
  split
  · rw [if_neg fun hstray => hstray.1 h]
  · rfl

theorem strayAt?_backslash (h : text.drop i = '\\' :: c :: cs) : strayAt? text i =
    if ¬ IsEscaped text i ∧ unescape? c = none ∧ c ≠ '\n' then
      some ⟨.illegalEscape (String.ofList ['\\', c]), ⟨placeAt text i, (placeAt text i).right 2⟩⟩
    else none := by
  unfold strayAt?
  rw [h]
  rfl

theorem placeAt_succ (h : text.drop i = c :: cs) : placeAt text (i + 1) = (placeAt text i).advance c := by
  rw [placeAt_add, h]
  rfl

theorem strays_cons (n : Nat) :
    strays text i (i + (n + 1)) = (strayAt? text i).toList ++ strays text (i + 1) (i + 1 + n) := by
  unfold strays
  rw [Nat.add_sub_cancel_left, Nat.add_sub_cancel_left, List.range'_succ, List.filterMap_cons]
  cases strayAt? text i <;> rfl

/-- What a walk over a string from an offset on finds in the text that it takes. -/
structure Quoted.Finds (text : List Char) (i : Nat) (q : Quoted) : Prop where
  errors : q.errors = strays text i (i + q.taken)
  closed : q.closed = true ↔ ∃ n, q.taken = n + 1 ∧ ClosesAt text (i + n)

/-- One more character in front, which does not close the string. -/
theorem Quoted.Finds.step {q q' : Quoted} (h : q.Finds text (i + 1)) (hquote : ¬ ClosesAt text i)
    (herrors : q'.errors = (strayAt? text i).toList ++ q.errors) (htaken : q'.taken = q.taken + 1)
    (hclosed : q'.closed = q.closed) : q'.Finds text i := by
  constructor
  · rw [herrors, htaken, strays_cons, h.errors]
  · rw [hclosed, h.closed, htaken]
    constructor
    · rintro ⟨n, hn, hcloses⟩
      exact ⟨n + 1, by rw [hn], by rwa [Nat.add_right_comm] at hcloses⟩
    · rintro ⟨n, hn, hcloses⟩
      cases n with
      | zero => exact absurd hcloses hquote
      | succ n => exact ⟨n, Nat.succ.inj hn, by rwa [Nat.add_right_comm]⟩

theorem not_closesAt_of_ne (h : text.drop i = c :: cs) (hc : c ≠ '"') : ¬ ClosesAt text i := by
  rintro ⟨hquote, -⟩
  rw [getElem?_of_drop h] at hquote
  exact hc (Option.some.inj hquote)

/-- The walk finds the stray backslashes and the closing quote, if no backslash in front of it escapes the backslash or
the quote that it begins with. -/
theorem scan_finds (p : Position) (cs : List Char) : ∀ i, text.drop i = cs → p = placeAt text i →
    (∀ c ∈ cs.head?, c = '\\' ∨ c = '"' → ¬ IsEscaped text i) → (Quoted.scan p cs).Finds text i := by
  fun_induction Quoted.scan p cs with
  | case1 | case3 =>
    intro i _ _ _
    exact ⟨by simp [strays], by simp⟩
  | case2 p cs =>
    intro i hdrop _ hfresh
    refine ⟨?_, iff_of_true rfl ⟨0, rfl, getElem?_of_drop hdrop, hfresh _ rfl (.inr rfl)⟩⟩
    rw [strays_cons 0, strayAt?_of_ne hdrop (by decide)]
    simp [strays]
  | case4 p c cs d hd ih =>
    intro i hdrop hp hfresh
    have hdrop' := drop_succ_of_drop hdrop
    have hescaped : IsEscaped text (i + 1) := (isEscaped_succ hdrop).2 ⟨rfl, hfresh _ rfl (.inl rfl)⟩
    have hrest := ih (i + 2) (drop_succ_of_drop hdrop') (by rw [hp, ← placeAt_succ hdrop, ← placeAt_succ hdrop'])
      fun _ _ _ h => ((isEscaped_succ hdrop').1 h).2 hescaped
    -- the character behind the backslash is escaped, so it is neither stray nor a closing quote
    have hlast : ((Quoted.scan ((p.advance '\\').advance c) cs).push d 1).Finds text (i + 1) :=
      hrest.step (fun h => h.2 hescaped) (by rw [strayAt?_of_isEscaped hescaped]; rfl) rfl rfl
    refine hlast.step (not_closesAt_of_ne hdrop (by decide)) ?_ rfl rfl
    rw [strayAt?_backslash hdrop, hd, if_neg (by simp)]
    rfl
  | case5 p c cs hc ih =>
    intro i hdrop hp hfresh
    have hfree : ¬ IsEscaped text i := hfresh _ rfl (.inl rfl)
    have hrest := ih (i + 1) (drop_succ_of_drop hdrop) (by rw [hp, ← placeAt_succ hdrop]) ?_
    · refine hrest.step (not_closesAt_of_ne hdrop (by decide)) ?_ rfl rfl
      rw [strayAt?_backslash hdrop]
      by_cases hline : c = '\n' <;> simp [Quoted.fault, Quoted.push, Quoted.stray, hfree, hc, hline, hp]
    · -- what follows a stray backslash is neither a backslash nor a quote
      rintro _ ⟨⟩ (rfl | rfl) <;> cases hc
  | case6 p c cs hquote hline hslash ih =>
    intro i hdrop hp hfresh
    have hrest := ih (i + 1) (drop_succ_of_drop hdrop) (by rw [hp, ← placeAt_succ hdrop]) ?_
    · have hstray : strayAt? text i = none := by
        by_cases hc : c = '\\'
        · -- a backslash comes here only as the last character of the text
          unfold strayAt?
          rw [hdrop]
          split
          · rename_i d ds hcs
            obtain ⟨-, rfl⟩ := List.cons.inj hcs
            exact absurd rfl (hslash d ds hc)
          · rfl
        · exact strayAt?_of_ne hdrop hc
      refine hrest.step (not_closesAt_of_ne hdrop hquote) ?_ rfl rfl
      rw [hstray]
      rfl
    · intro d hd _ hescaped
      obtain ⟨rfl, -⟩ := (isEscaped_succ hdrop).1 hescaped
      obtain ⟨ds, rfl⟩ := List.head?_eq_some_iff.1 hd
      exact hslash d ds rfl rfl

end VCLang
