/-
The spans that a parse reads. A parser stands between two offsets of the text: the token moved past last ends at the
first, the token that is looked at begins at the second. A step that moves on leaves a row of spans behind it, which
begins where the first token of the step does and ends with its last one; steps that may stay where they are leave a
row or nothing. What is read one after the other is a row of all.
-/
import VCLang.Proofs.Grammar.Built
import VCLang.Proofs.Grammar.Reads
import VCLang.Proofs.Span.Tree
import VCLang.Proofs.Token.Lossless
namespace VCLang

variable {text : List Char} {p q : Parser} {a b i k : Nat}

/-! ## Places of parsers -/

/-- Tokens of a text, up to and with its end mark, from the offset at which the first of them begins. -/
inductive Ahead (text : List Char) : Nat → List Token → Prop
  | last {t : Token} : t.span = spanAt text text.length text.length → Ahead text text.length [t]
  | next {i j k : Nat} {t : Token} {ts : List Token} : i ≤ j → j ≤ k → t.span = spanAt text i j → Ahead text k ts →
    Ahead text i (t :: ts)

theorem Ahead.le_length {ts : List Token} (h : Ahead text i ts) : i ≤ text.length := by
  induction h with
  | last => exact Nat.le_refl _
  | next => omega

theorem Ahead.head {t : Token} {ts : List Token} (h : Ahead text i (t :: ts)) :
    ∃ j, i ≤ j ∧ j ≤ text.length ∧ t.span = spanAt text i j := by
  cases h with
  | last hspan => exact ⟨_, Nat.le_refl _, Nat.le_refl _, hspan⟩
  | next hij hjk hspan hrest =>
    have hk := hrest.le_length
    exact ⟨_, hij, by omega, hspan⟩

theorem Cut.ahead {ts : List Token} (h : Cut text (placeAt text) a ts) : ∃ i, a ≤ i ∧ Ahead text i ts := by
  induction h with
  | last ha _ => exact ⟨_, ha, .last rfl⟩
  | @next a b e t ts hab hbe _ _ _ hspan _ _ ih =>
    obtain ⟨k, hk, hahead⟩ := ih
    exact ⟨b, hab, .next (Nat.le_of_lt hbe) hk hspan hahead⟩

/-- A parser has moved past a text up to one offset and looks at a token that begins at another. -/
structure Parser.At (text : List Char) (p : Parser) (a i : Nat) : Prop where
  previousEnd : p.previousEnd = placeAt text a
  le : a ≤ i
  ahead : Ahead text i p.tokens

namespace Parser.At

theorem le_length (h : p.At text a i) : i ≤ text.length := h.ahead.le_length

/-- The token that is looked at. -/
theorem current (h : p.At text a i) : ∃ j, i ≤ j ∧ j ≤ text.length ∧ p.current.span = spanAt text i j :=
  h.ahead.head

/-- Moving on leads to the end of the token, and the end mark is moved past without moving on. -/
theorem advance (h : p.At text a i) :
    ∃ b k, p.advance.At text b k ∧ i ≤ b ∧ p.current.span = spanAt text i b := by
  obtain ⟨-, -, ahead⟩ := h
  unfold Parser.advance
  split
  · rename_i hnil
    unfold Parser.tokens at ahead
    rw [hnil] at ahead
    cases ahead with
    | last hspan =>
      refine ⟨text.length, text.length, ⟨?_, Nat.le_refl _, ?_⟩, Nat.le_refl _, hspan⟩
      · rw [hspan]
        rfl
      · rw [Parser.tokens, hnil]
        exact .last hspan
    | next _ _ _ hrest => cases hrest
  · rename_i l ls hls
    unfold Parser.tokens at ahead
    rw [hls] at ahead
    cases ahead with
    | @next _ j k _ _ hij hjk hspan hrest =>
      refine ⟨j, k, ⟨?_, hjk, hrest⟩, hij, hspan⟩
      rw [hspan]
      rfl

/-- What is read from the token that a parser looks at up to where another one stands. -/
theorem spanFrom (hp : p.At text a i) (hq : q.At text b k) : q.spanFrom p.current.span.start = spanAt text i b := by
  obtain ⟨j, -, -, hspan⟩ := hp.current
  rw [Parser.spanFrom, hq.previousEnd, hspan]
  rfl

end Parser.At

/-! ## Steps -/

/-- A step from one place to another leaves spans behind: a row from its first token on, or nothing where it stays. -/
inductive Stretch (text : List Char) (a i : Nat) : List Span → Nat → Nat → Prop
  | stay : Stretch text a i [] a i
  | move {b k : Nat} {ss : List Span} : Row text i ss b → b ≤ k → Stretch text a i ss b k

namespace Stretch

variable {a' i' c l : Nat} {ss ts : List Span}

theorem append (h : Stretch text a i ss b k) (h' : Stretch text b k ts c l) : Stretch text a i (ss ++ ts) c l := by
  cases h with
  | stay => exact h'
  | move hrow hle =>
    cases h' with
    | stay =>
      rw [List.append_nil]
      exact .move hrow hle
    | move hrow' hle' => exact .move (hrow.append hle hrow') hle'

/-- A row before what may stay. -/
theorem row_append (hrow : Row text i' ss a) (ha : a ≤ i) (h : Stretch text a i ts b k) : Row text i' (ss ++ ts) b := by
  cases h with
  | stay =>
    rw [List.append_nil]
    exact hrow
  | move hrow' _ => exact hrow.append ha hrow'

end Stretch

namespace Parse

variable {α : Type}

/-- A step leaves the spans of its result in a row, from its first token to its last. -/
def Covers (text : List Char) (m : Parse α) (spans : α → List Span) (ok : α → Prop) : Prop :=
  ∀ ⦃p x q a i⦄, m.Yields p x q → p.At text a i → ∃ b k, q.At text b k ∧ Row text i (spans x) b ∧ ok x

/-- A step does so, or stays where it is. -/
def MayCover (text : List Char) (m : Parse α) (spans : α → List Span) (ok : α → Prop) : Prop :=
  ∀ ⦃p x q a i⦄, m.Yields p x q → p.At text a i → ∃ b k, q.At text b k ∧ Stretch text a i (spans x) b k ∧ ok x

theorem Yields.at_advance {t : Token} (h : advance.Yields p t q) (hp : p.At text a i) :
    ∃ b k, q.At text b k ∧ i ≤ b ∧ t.span = spanAt text i b := by
  obtain ⟨rfl, rfl⟩ := yields_advance.1 h
  exact hp.advance

theorem Yields.at_expect {j : TokenKind} {t : Token} (h : (expect j).Yields p t q) (hp : p.At text a i) :
    ∃ b k, q.At text b k ∧ i ≤ b ∧ t.span = spanAt text i b := by
  unfold expect at h
  simp only [yields_bind, yields_kind] at h
  obtain ⟨_, _, ⟨rfl, rfl⟩, h⟩ := h
  split_ifs at h
  · exact h.at_advance hp
  · exact absurd h not_yields_fail

theorem covers_advance : Covers text advance (fun t => [t.span]) fun _ => True := by
  intro p t q a i hy hp
  obtain ⟨b, k, hq, hib, hspan⟩ := hy.at_advance hp
  exact ⟨b, k, hq, .single hspan hib, trivial⟩

namespace Covers

variable {spans : α → List Span} {ok : α → Prop} {m : Parse α} {test : TokenKind → Bool}

/-- A step behind another one whose result is left out. -/
theorem behind {β : Type} {first : Parse β} {spans' : β → List Span} {ok' : β → Prop}
    (hfirst : Covers text first spans' ok') (h : Covers text m spans ok) :
    Covers text (do let _ ← first; m) spans ok := by
  intro p x q a i hy hp
  simp only [yields_bind] at hy
  obtain ⟨_, r, hskipped, hy⟩ := hy
  obtain ⟨b, k, hr, hrow', -⟩ := hfirst hskipped hp
  obtain ⟨c, l, hq, hrow, hok⟩ := h hy hr
  exact ⟨c, l, hq, hrow.mono_left (Nat.le_trans hrow'.le hr.le), hok⟩

/-- A step in front of another one whose result is left out. -/
theorem before {β : Type} {last : Parse β} {spans' : β → List Span} {ok' : β → Prop} (h : Covers text m spans ok)
    (hlast : Covers text last spans' ok') : Covers text (do let x ← m; let _ ← last; return x) spans ok := by
  intro p x q a i hy hp
  simp only [yields_bind, yields_pure] at hy
  obtain ⟨x, r, hx, _, _, hskipped, rfl, rfl⟩ := hy
  obtain ⟨b, k, hr, hrow, hok⟩ := h hx hp
  obtain ⟨c, l, hq, hrow', -⟩ := hlast hskipped hr
  exact ⟨c, l, hq, hrow.mono_right (Nat.le_trans hr.le hrow'.le), hok⟩

theorem manyUpTo (h : Covers text m spans ok) (n : Nat) :
    MayCover text (manyUpTo test m n) (fun xs => xs.flatMap spans) fun xs => ∀ x ∈ xs, ok x := by
  induction n with
  | zero =>
    intro p xs q a i hy hp
    obtain ⟨rfl, rfl⟩ := yields_pure.1 hy
    exact ⟨a, i, hp, .stay, by simp⟩
  | succ n ih =>
    intro p xs q a i hy hp
    unfold Parse.manyUpTo at hy
    simp only [yields_bind, yields_kind] at hy
    obtain ⟨_, _, ⟨rfl, rfl⟩, hy⟩ := hy
    split_ifs at hy
    · simp only [yields_bind, yields_pure] at hy
      obtain ⟨x, r, hx, xs, _, hxs, rfl, rfl⟩ := hy
      obtain ⟨b, k, hr, hrow, hok⟩ := h hx hp
      obtain ⟨c, l, hq, hrest, hoks⟩ := ih hxs hr
      exact ⟨c, l, hq, (Stretch.move hrow hr.le).append hrest, List.forall_mem_cons.2 ⟨hok, hoks⟩⟩
    · obtain ⟨rfl, rfl⟩ := yields_pure.1 hy
      exact ⟨a, i, hp, .stay, by simp⟩

theorem many (h : Covers text m spans ok) :
    MayCover text (many test m) (fun xs => xs.flatMap spans) fun xs => ∀ x ∈ xs, ok x :=
  fun _ _ _ _ _ hy hp => h.manyUpTo _ hy hp

theorem commaList (h : Covers text m spans ok) :
    Covers text (commaList m) (fun xs => xs.flatMap spans) fun xs => ∀ x ∈ xs, ok x := by
  intro p xs q a i hy hp
  unfold Parse.commaList at hy
  simp only [yields_bind, yields_pure] at hy
  obtain ⟨x, r, hx, xs, _, hxs, rfl, rfl⟩ := hy
  obtain ⟨b, k, hr, hrow, hok⟩ := h hx hp
  obtain ⟨c, l, hq, hrest, hoks⟩ := (covers_advance.behind h).many hxs hr
  exact ⟨c, l, hq, hrest.row_append hrow hr.le, List.forall_mem_cons.2 ⟨hok, hoks⟩⟩

theorem parenthesised (h : Covers text m spans ok) :
    Covers text (parenthesised m) (fun xs => xs.flatMap spans) fun xs => ∀ x ∈ xs, ok x := by
  intro p xs q a i hy hp
  unfold Parse.parenthesised at hy
  simp only [yields_bind, yields_kind] at hy
  obtain ⟨t, r, ht, _, _, ⟨rfl, rfl⟩, hy⟩ := hy
  obtain ⟨b, k, hr, hib, -⟩ := ht.at_expect hp
  have hbk := hr.le
  split_ifs at hy
  · simp only [yields_bind, yields_pure] at hy
    obtain ⟨_, _, ⟨rfl, rfl⟩, t', r', ht', rfl, rfl⟩ := hy
    obtain ⟨c, l, hq, hkc, -⟩ := ht'.at_expect hr
    exact ⟨c, l, hq, .nil (by omega), by simp⟩
  · simp only [yields_bind, yields_pure] at hy
    obtain ⟨xs, r', hxs, t', r'', ht', rfl, rfl⟩ := hy
    obtain ⟨c, l, hr', hrow, hoks⟩ := h.commaList hxs hr
    have hcl := hr'.le
    obtain ⟨d, n, hq, hld, -⟩ := ht'.at_expect hr'
    exact ⟨d, n, hq, (hrow.mono_left (by omega)).mono_right (by omega), hoks⟩

end Covers

end Parse

end VCLang
