/-
What may stand between tokens, as a grammar of its own: blanks and comments that end. Behind the last
token a comment may also run to the end of the text: one to the end of its line, which is complete there,
or one in `/* */` that is still open. The walk over a gap reads just such a text.
-/
import VCLang.Token.Gap
namespace VCLang

/-- A text of blanks and comments; `final` says that nothing follows it. The body of a block comment ends
at the first `*/`. -/
inductive Filler (final : Bool) : List Char → Prop
  | nil : Filler final []
  | blank {c : Char} {cs : List Char} : isBlank c = true → Filler final cs → Filler final (c :: cs)
  | line {body cs : List Char} :
    '\n' ∉ body → Filler final cs → Filler final ('/' :: '/' :: (body ++ '\n' :: cs))
  | block {body cs : List Char} :
    ¬ ['*', '/'] <:+: body → Filler final cs → Filler final ('/' :: '*' :: (body ++ '*' :: '/' :: cs))
  | lastLine {body : List Char} : final = true → '\n' ∉ body → Filler final ('/' :: '/' :: body)
  | openBlock {body : List Char} :
    final = true → ¬ ['*', '/'] <:+: body → Filler final ('/' :: '*' :: body)

namespace Filler

variable {final : Bool} {c : Char} {cs : List Char}

theorem slash_not_blank : isBlank '/' = false := by decide

/-- One more character in the line of a comment. -/
theorem line_cons (hc : c ≠ '\n') (h : Filler final ('/' :: '/' :: cs)) :
    Filler final ('/' :: '/' :: c :: cs) := by
  generalize hs : '/' :: '/' :: cs = s at h
  cases h with
  | nil => cases hs
  | blank hb _ =>
    cases hs
    rw [slash_not_blank] at hb
    cases hb
  | @line body rest hn hr =>
    cases hs
    exact @Filler.line _ (c :: body) rest (by simp [hn, Ne.symm hc]) hr
  | block _ _ => cases hs
  | lastLine hf hn =>
    cases hs
    exact .lastLine hf (by simp [hn, Ne.symm hc])
  | openBlock _ _ => cases hs

/-- What stands in front of an `*/`-free text makes an `*/` only if it does so with the first character. -/
theorem not_infix_cons {body : List Char} (h : ¬ ['*', '/'] <:+: body)
    (hc : ¬ (c = '*' ∧ body.head? = some '/')) : ¬ ['*', '/'] <:+: c :: body := by
  rw [List.infix_cons_iff]
  rintro (hp | hi)
  · rw [List.cons_prefix_cons] at hp
    obtain ⟨rfl, t, ht⟩ := hp
    refine hc ⟨rfl, ?_⟩
    rw [← ht]
    rfl
  · exact h hi

/-- One more character in a block comment that it does not end. -/
theorem block_cons (hc : ¬ (c = '*' ∧ cs.head? = some '/')) (h : Filler final ('/' :: '*' :: cs)) :
    Filler final ('/' :: '*' :: c :: cs) := by
  generalize hs : '/' :: '*' :: cs = s at h
  cases h with
  | nil => cases hs
  | blank hb _ =>
    cases hs
    rw [slash_not_blank] at hb
    cases hb
  | line _ _ => cases hs
  | @block body rest hn hr =>
    cases hs
    refine @Filler.block _ (c :: body) rest (not_infix_cons hn fun hb => hc ⟨hb.1, ?_⟩) hr
    rcases body with _ | ⟨b, bs⟩
    · exact absurd hb.2 (by simp)
    · exact hb.2
  | lastLine _ _ => cases hs
  | openBlock hf hn =>
    cases hs
    exact .openBlock hf (not_infix_cons hn hc)

end Filler

/-- The opening of the comment that a walk over a gap is in. -/
def GapMode.opening : GapMode → List Char
  | .between => []
  | .inLine => ['/', '/']
  | .inBlock _ => ['/', '*']

/-- A walk over a gap reads blanks and comments, and leaves a comment open only at the end of the text. -/
theorem skipGap_filler (m : GapMode) (p : Position) (cs : List Char) :
    ∃ ds, cs = ds ++ (skipGap m p cs).rest ∧ Filler (skipGap m p cs).rest.isEmpty (m.opening ++ ds) := by
  fun_induction skipGap m p cs with
  | case1 => exact ⟨[], rfl, .openBlock rfl (by simp)⟩
  | case2 p opened cs ih =>
    obtain ⟨ds, h, hf⟩ := ih
    refine ⟨'*' :: '/' :: ds, ?_, @Filler.block _ [] ds (by simp) hf⟩
    rw [List.cons_append, List.cons_append, ← h]
  | case3 p opened c cs hne ih =>
    obtain ⟨ds, h, hf⟩ := ih
    refine ⟨c :: ds, by rw [List.cons_append, ← h], Filler.block_cons ?_ hf⟩
    rintro ⟨rfl, hd⟩
    -- an asterisk before a slash would have ended the comment here
    rcases ds with _ | ⟨d, ds⟩
    · cases hd
    · cases hd
      exact hne _ rfl h
  | case4 => exact ⟨[], rfl, .lastLine rfl (by simp)⟩
  | case5 p cs ih =>
    obtain ⟨ds, h, hf⟩ := ih
    exact ⟨'\n' :: ds, by rw [List.cons_append, ← h], @Filler.line _ [] ds (by simp) hf⟩
  | case6 p c cs hc ih =>
    obtain ⟨ds, h, hf⟩ := ih
    exact ⟨c :: ds, by rw [List.cons_append, ← h], Filler.line_cons hc hf⟩
  | case7 => exact ⟨[], rfl, .nil⟩
  | case8 p cs ih =>
    obtain ⟨ds, h, hf⟩ := ih
    exact ⟨'/' :: '/' :: ds, by rw [List.cons_append, List.cons_append, ← h], hf⟩
  | case9 p cs ih =>
    obtain ⟨ds, h, hf⟩ := ih
    exact ⟨'/' :: '*' :: ds, by rw [List.cons_append, List.cons_append, ← h], hf⟩
  | case10 p c cs _ _ hb ih =>
    obtain ⟨ds, h, hf⟩ := ih
    exact ⟨c :: ds, by rw [List.cons_append, ← h], .blank hb hf⟩
  | case11 => exact ⟨[], rfl, .nil⟩

/-! ## The walk over filler -/

theorem skipGap_inLine {body : List Char} (h : '\n' ∉ body) (p : Position) (cs : List Char) :
    skipGap .inLine p (body ++ '\n' :: cs) = skipGap .between (p.after (body ++ ['\n'])) cs := by
  induction body generalizing p with
  | nil => exact if_pos rfl
  | cons c body ih =>
    have hc : c ≠ '\n' := fun hc => h (by rw [hc]; exact List.mem_cons_self)
    rw [List.cons_append, skipGap, if_neg hc]
    exact ih (fun hmem => h (List.mem_cons_of_mem c hmem)) _

/-- In a block comment one character is passed that does not end it. -/
theorem skipGap_inBlock_cons {c : Char} {cs : List Char} (h : ¬ (c = '*' ∧ cs.head? = some '/'))
    (opened p : Position) : skipGap (.inBlock opened) p (c :: cs) = skipGap (.inBlock opened) (p.advance c) cs := by
  rw [skipGap]
  rintro ds rfl rfl
  exact h ⟨rfl, rfl⟩

/-- The first character of a text without `*/` does not begin one, if what stands behind the text does not. -/
theorem not_ends_of_absent {c : Char} {body cs : List Char} (h : ¬ ['*', '/'] <:+: c :: body)
    (hcs : cs.head? ≠ some '/') : ¬ (c = '*' ∧ (body ++ cs).head? = some '/') := by
  rintro ⟨rfl, hhead⟩
  cases body with
  | nil => exact hcs hhead
  | cons d body =>
    obtain rfl : d = '/' := Option.some.inj hhead
    exact h ⟨[], body, rfl⟩

theorem not_infix_of_cons {c : Char} {body : List Char} (h : ¬ ['*', '/'] <:+: c :: body) :
    ¬ ['*', '/'] <:+: body :=
  fun hwithin => h (hwithin.trans (List.suffix_cons c body).isInfix)

/-- A comment ends with the first `*/` behind its opening. -/
theorem skipGap_inBlock {body : List Char} (h : ¬ ['*', '/'] <:+: body) (opened p : Position) (cs : List Char) :
    skipGap (.inBlock opened) p (body ++ '*' :: '/' :: cs) =
      skipGap .between (p.after (body ++ ['*', '/'])) cs := by
  induction body generalizing p with
  | nil => rfl
  | cons c body ih =>
    rw [List.cons_append, skipGap_inBlock_cons (not_ends_of_absent h (by simp))]
    exact ih (not_infix_of_cons h) _

/-- Without an `*/` a comment is open to the end of the text. -/
theorem skipGap_open {body : List Char} (h : ¬ ['*', '/'] <:+: body) (opened p : Position) :
    skipGap (.inBlock opened) p body = ⟨[], p.after body, [openComment opened]⟩ := by
  induction body generalizing p with
  | nil => rfl
  | cons c body ih =>
    have hc : ¬ (c = '*' ∧ (body ++ []).head? = some '/') := not_ends_of_absent h (by simp)
    rw [List.append_nil] at hc
    rw [skipGap_inBlock_cons hc]
    exact ih (not_infix_of_cons h) _

/-- Blanks and comments in front of a text are passed as a whole. -/
theorem Filler.skipGap_append {gap : List Char} (h : Filler false gap) (p : Position) (cs : List Char) :
    skipGap .between p (gap ++ cs) = skipGap .between (p.after gap) cs := by
  induction h generalizing p with
  | nil => rfl
  | @blank c gap hc _ ih =>
    have hstep : skipGap .between p (c :: (gap ++ cs)) = skipGap .between (p.advance c) (gap ++ cs) := by
      rw [skipGap, if_pos hc]
      all_goals
        rintro ds rfl
        exact absurd hc (by decide)
    rw [List.cons_append, hstep]
    exact ih _
  | @line body gap hbody _ ih =>
    have hplace : p.after ('/' :: '/' :: (body ++ '\n' :: gap)) =
        ((p.right 2).after (body ++ ['\n'])).after gap := by
      rw [← Position.after_append, List.append_assoc]
      rfl
    simp only [List.cons_append, List.append_assoc]
    rw [skipGap, skipGap_inLine hbody, ih, hplace]
  | @block body gap hbody _ ih =>
    have hplace : p.after ('/' :: '*' :: (body ++ '*' :: '/' :: gap)) =
        ((p.right 2).after (body ++ ['*', '/'])).after gap := by
      rw [← Position.after_append, List.append_assoc]
      rfl
    simp only [List.cons_append, List.append_assoc]
    rw [skipGap, skipGap_inBlock hbody, ih, hplace]
  | lastLine hfinal => cases hfinal
  | openBlock hfinal => cases hfinal

/-! ## Comments that stay open -/

/-- A comment that is open at the end of a text which a walk over a gap reads from a position on: it opens behind
blanks and comments that end, if the walk is not in it already. -/
inductive LeftOpen : GapMode → Position → List Char → Position → Prop
  | here {opened p : Position} {cs : List Char} : ¬ ['*', '/'] <:+: cs → LeftOpen (.inBlock opened) p cs opened
  | behind {m : GapMode} {p : Position} {gap body : List Char} : Filler false (m.opening ++ gap) →
    ¬ ['*', '/'] <:+: body → LeftOpen m p (gap ++ '/' :: '*' :: body) (p.after gap)

/-- A comment that opens behind more of a gap. -/
theorem LeftOpen.further {m m' : GapMode} {p opened : Position} {cs : List Char} (ds : List Char)
    (h : LeftOpen m' (p.after ds) cs opened) (hclosed : ∀ o, m' ≠ .inBlock o)
    (hgap : ∀ gap, Filler false (m'.opening ++ gap) → Filler false (m.opening ++ (ds ++ gap))) :
    LeftOpen m p (ds ++ cs) opened := by
  cases h with
  | here => exact absurd rfl (hclosed opened)
  | @behind _ _ gap body hfiller hbody =>
    rw [← List.append_assoc, ← Position.after_append]
    exact .behind (hgap gap hfiller) hbody

/-- What is wrong with a gap is a comment that stays open, and there is no second one. -/
theorem skipGap_errors (m : GapMode) (p : Position) (cs : List Char) :
    (skipGap m p cs).errors = [] ∨
      ∃ opened, LeftOpen m p cs opened ∧ (skipGap m p cs).errors = [openComment opened] := by
  fun_induction skipGap m p cs with
  | case1 => exact .inr ⟨_, .here (by simp), rfl⟩
  | case2 p opened cs ih =>
    refine ih.imp_right (Exists.imp fun o => And.imp_left fun ho => ?_)
    exact ho.further ['*', '/'] (by rintro _ ⟨⟩) fun gap => @Filler.block _ [] gap (by simp)
  | case3 p opened c cs hne ih =>
    refine ih.imp_right (Exists.imp fun o => And.imp_left fun ho => ?_)
    have hends : ¬ (c = '*' ∧ cs.head? = some '/') := by
      rintro ⟨rfl, hhead⟩
      obtain ⟨ds, rfl⟩ := List.head?_eq_some_iff.1 hhead
      exact hne ds rfl rfl
    cases ho with
    | here hbody => exact .here (Filler.not_infix_cons hbody hends)
    | @behind _ _ gap body hgap hbody =>
      refine @LeftOpen.behind _ _ (c :: gap) body (Filler.block_cons ?_ hgap) hbody
      rintro ⟨hc, hhead⟩
      refine hends ⟨hc, ?_⟩
      rw [List.head?_append, hhead]
      rfl
  | case4 | case7 | case11 => exact .inl rfl
  | case5 p cs ih =>
    refine ih.imp_right (Exists.imp fun o => And.imp_left fun ho => ?_)
    exact ho.further ['\n'] (by rintro _ ⟨⟩) fun gap => @Filler.line _ [] gap (by simp)
  | case6 p c cs hc ih =>
    refine ih.imp_right (Exists.imp fun o => And.imp_left fun ho => ?_)
    exact ho.further [c] (by rintro _ ⟨⟩) fun gap => Filler.line_cons hc
  | case8 p cs ih =>
    refine ih.imp_right (Exists.imp fun o => And.imp_left fun ho => ?_)
    exact ho.further ['/', '/'] (by rintro _ ⟨⟩) fun gap => id
  | case9 p cs ih =>
    refine ih.imp_right (Exists.imp fun o => And.imp_left fun ho => ?_)
    cases ho with
    | here hbody => exact @LeftOpen.behind _ _ [] _ .nil hbody
    | @behind _ _ gap body hgap hbody => exact @LeftOpen.behind _ _ ('/' :: '*' :: gap) body hgap hbody
  | case10 p c cs _ _ hb ih =>
    refine ih.imp_right (Exists.imp fun o => And.imp_left fun ho => ?_)
    exact ho.further [c] (by rintro _ ⟨⟩) fun gap => Filler.blank hb

/-- Where something is wrong with a gap, the text ends with it. -/
theorem skipGap_rest_of_mem {m : GapMode} {p : Position} {cs : List Char} {e : Error}
    (h : e ∈ (skipGap m p cs).errors) : (skipGap m p cs).rest = [] := by
  fun_induction skipGap m p cs with
  | case1 => rfl
  | case4 | case7 | case11 => cases h
  | _ => simp_all

/-- A comment that stays open is reported, and reaches to the end of the text. -/
theorem LeftOpen.skipGap_eq {p opened : Position} {cs : List Char} (h : LeftOpen .between p cs opened) :
    skipGap .between p cs = ⟨[], p.after cs, [openComment opened]⟩ := by
  cases h with
  | @behind _ _ gap body hgap hbody =>
    have hgap : Filler false gap := hgap
    rw [hgap.skipGap_append, skipGap, skipGap_open hbody, Position.after_append]
    rfl

end VCLang
