/-
A newline separates what is scanned before it from what is scanned behind it. Nothing but a comment in `/* */` reads on
over the end of a line: at a newline a token, an unclosed string and a comment to the end of the line stop just as they
do at the end of the text, and what is wrong with them is the same. So a text, a newline and a second text are cut into
the tokens of the first and then those of the second, which keep their columns and stand so many lines further down.

Two facts of one step carry the walk: moved down as a whole, a scanner does the same further down; and a newline behind
the rest of its text, with whatever follows, changes no step but the one that finds the end of the text.
-/
import VCLang.Proofs.Token.Longest
import VCLang.Proofs.Token.Walk
namespace VCLang

/-! ## Further down -/

/-- The position in the same column so many lines below. -/
def Position.down (n : Nat) (p : Position) : Position := ⟨p.line + n, p.column⟩

def Span.down (n : Nat) (s : Span) : Span := ⟨s.start.down n, s.stop.down n⟩

def Token.down (n : Nat) (t : Token) : Token := { t with span := t.span.down n }

def Error.down (n : Nat) (e : Error) : Error := { e with span := e.span.down n }

def Lexeme.down (n : Nat) (l : Lexeme) : Lexeme := ⟨l.token.down n, l.errors.map (Error.down n)⟩

def Scanner.down (n : Nat) (s : Scanner) : Scanner := { s with pos := s.pos.down n }

def GapMode.down (n : Nat) : GapMode → GapMode
  | .between => .between
  | .inLine => .inLine
  | .inBlock opened => .inBlock (opened.down n)

def Gap.down (n : Nat) (g : Gap) : Gap := ⟨g.rest, g.pos.down n, g.errors.map (Error.down n)⟩

def Quoted.down (n : Nat) (q : Quoted) : Quoted := { q with errors := q.errors.map (Error.down n) }

variable {cs tail : List Char}

theorem Position.advance_down (n : Nat) (p : Position) (c : Char) : (p.down n).advance c = (p.advance c).down n := by
  unfold advance down
  split_ifs
  · rw [Nat.add_right_comm]
  · rfl
  · rfl

theorem Position.after_down (n : Nat) (p : Position) (cs : List Char) : (p.down n).after cs = (p.after cs).down n := by
  induction cs generalizing p with
  | nil => rfl
  | cons c cs ih => rw [after_cons, after_cons, advance_down, ih]

theorem skipGap_down (n : Nat) (m : GapMode) (p : Position) (cs : List Char) :
    skipGap (m.down n) (p.down n) cs = (skipGap m p cs).down n := by
  fun_induction skipGap m p cs with
  | case1 | case4 | case7 => rfl
  | case2 p opened cs ih | case8 p cs ih | case9 p cs ih => exact ih
  | case3 p opened c cs hend ih =>
    rw [GapMode.down, skipGap, Position.advance_down]
    · exact ih
    · exact hend
  | case5 p cs ih =>
    rw [GapMode.down, skipGap, if_pos rfl, Position.advance_down]
    exact ih
  | case6 p c cs hc ih =>
    rw [GapMode.down, skipGap, if_neg hc, Position.advance_down]
    exact ih
  | case10 p c cs hline hblock hc ih =>
    rw [GapMode.down, skipGap, if_pos hc, Position.advance_down]
    · exact ih
    · exact hline
    · exact hblock
  | case11 p c cs hline hblock hc =>
    rw [GapMode.down, skipGap, if_neg hc]
    · rfl
    · exact hline
    · exact hblock

theorem Quoted.scan_down (n : Nat) (p : Position) (cs : List Char) : scan (p.down n) cs = (scan p cs).down n := by
  fun_induction scan p cs with
  | case1 | case2 | case3 => rfl
  | case4 p c cs d hd ih =>
    rw [scan, hd, Position.advance_down, Position.advance_down, ih]
    rfl
  | case5 p c cs hc ih =>
    have hstray : stray (p.down n) c = (stray p c).map (Error.down n) := by
      unfold stray
      split_ifs <;> rfl
    rw [scan, hc, Position.advance_down]
    simp only [ih, hstray, fault, push, down, List.map_append]
  | case6 p c cs hquote hline hslash ih =>
    rw [scan, Position.advance_down, ih]
    · rfl
    · exact hquote
    · exact hline
    · exact hslash

namespace Scanner

theorem skip_down (n k : Nat) (s : Scanner) : (s.down n).skip k = (s.skip k).down n := by
  unfold skip down
  rw [Position.after_down]

theorem readQuoted_down (n : Nat) (s : Scanner) :
    (s.down n).readQuoted = (s.readQuoted.1.down n, s.readQuoted.2.down n) := by
  simp only [readQuoted, skip_down]
  rw [show ((s.skip 1).down n).pos = (s.skip 1).pos.down n from rfl, Quoted.scan_down,
    show ((s.skip 1).down n).rest = (s.skip 1).rest from rfl]
  generalize Quoted.scan (s.skip 1).pos (s.skip 1).rest = q
  obtain ⟨text, taken, closed, errors⟩ := q
  cases closed <;> simp [Quoted.down, Lexeme.down, Token.down, Span.down, Error.down, down]

theorem readMunched_down (n : Nat) (s : Scanner) :
    (s.down n).readMunched = (s.readMunched.1.down n, s.readMunched.2.down n) := by
  simp only [readMunched, skip_down]
  rw [show (s.down n).rest = s.rest from rfl]
  split_ifs <;> rfl

theorem readToken_down (n : Nat) (s : Scanner) :
    (s.down n).readToken = (s.readToken.1.down n, s.readToken.2.down n) := by
  rcases s.readToken_cases with ⟨hnil, hread⟩ | ⟨cs, hquote, hread⟩ | ⟨hne, hquote, hread⟩
  · obtain ⟨rest, p⟩ := s
    obtain rfl : rest = [] := hnil
    rfl
  · obtain ⟨rest, p⟩ := s
    obtain rfl : rest = '"' :: cs := hquote
    exact readQuoted_down n _
  · rw [hread, @readToken_munched (s.down n) hne hquote, readMunched_down]

theorem next_down (n : Nat) (s : Scanner) : (s.down n).next = (s.next.1.down n, s.next.2.down n) := by
  have hgap : skipGap .between (s.down n).pos (s.down n).rest = (skipGap .between s.pos s.rest).down n :=
    skipGap_down n .between s.pos s.rest
  have hbehind : (s.down n).behindGap = s.behindGap.down n := by
    rw [behindGap, hgap]
    rfl
  rw [next_eq, hbehind, readToken_down, hgap, next_eq s]
  simp only [Lexeme.down, Gap.down, List.map_append]

/-- A walk that begins further down cuts the same tokens there, with the same faults. -/
theorem lexemes_down (n : Nat) (s : Scanner) : (s.down n).lexemes = s.lexemes.map (Lexeme.down n) := by
  have hnext := s.next_down n
  induction s using walk_induction with
  | eof s heof =>
    rw [lexemes_of_eof heof, @lexemes_of_eof (s.down n) (by rw [hnext]; exact heof), hnext]
    rfl
  | token s heof ih =>
    rw [lexemes_of_not_eof heof, @lexemes_of_not_eof (s.down n) (by rw [hnext]; exact heof), hnext]
    exact congrArg _ (ih (next_down n _))

end Scanner

/-! ## In front of a newline -/

/-- A walk over a gap that closes its comments goes on over a newline and what follows it. -/
theorem skipGap_newline {m : GapMode} {p : Position} (h : (skipGap m p cs).errors = []) (tail : List Char) :
    skipGap m p (cs ++ '\n' :: tail) =
      skipGap .between (skipGap m p cs).pos ((skipGap m p cs).rest ++ '\n' :: tail) := by
  fun_induction skipGap m p cs with
  | case1 => cases h
  | case2 p opened cs ih | case8 p cs ih | case9 p cs ih => exact ih h
  | case3 p opened c cs hend ih =>
    rw [List.cons_append, skipGap_inBlock_cons]
    · exact ih h
    · rintro ⟨rfl, hhead⟩
      cases cs with
      | nil => cases hhead
      | cons d cs => exact hend cs rfl (by rw [Option.some.inj hhead])
  | case4 => exact if_pos rfl
  | case5 p cs ih =>
    rw [List.cons_append, skipGap, if_pos rfl]
    exact ih h
  | case6 p c cs hc ih =>
    rw [List.cons_append, skipGap, if_neg hc]
    exact ih h
  | case7 => rfl
  | case10 p c cs hline hblock hc ih =>
    have hslash : c ≠ '/' := by
      rintro rfl
      exact absurd hc (by decide)
    rw [List.cons_append, skipGap, if_pos hc]
    · exact ih h
    · exact fun _ hc _ => hslash hc
    · exact fun _ hc _ => hslash hc
  | case11 => rfl

/-- What stands behind a gap begins no further gap, and begins none with a newline behind it. -/
theorem skipGap_stopped {m : GapMode} {p : Position} (h : (skipGap m p cs).rest ≠ []) (q : Position)
    (tail : List Char) : skipGap .between q ((skipGap m p cs).rest ++ '\n' :: tail) =
      ⟨(skipGap m p cs).rest ++ '\n' :: tail, q, []⟩ := by
  fun_induction skipGap m p cs with
  | case1 | case4 | case7 => exact absurd rfl h
  | case2 p opened cs ih | case3 p opened c cs _ ih | case5 p cs ih | case6 p c cs _ ih | case8 p cs ih
    | case9 p cs ih | case10 p c cs _ _ _ ih => exact ih h
  | case11 p c cs hline hblock hc =>
    have hbehind (d : Char) (hd : d ≠ '\n') (ds : List Char) (hcs : cs ++ '\n' :: tail = d :: ds) :
        ∃ ds, cs = d :: ds := by
      cases cs with
      | nil => exact absurd (List.cons.inj hcs).1.symm hd
      | cons e cs => exact ⟨cs, by rw [(List.cons.inj hcs).1]⟩
    rw [List.cons_append, skipGap, if_neg hc]
    · intro ds hslash hcs
      obtain ⟨ds, hds⟩ := hbehind '/' (by decide) ds hcs
      exact hline ds hslash hds
    · intro ds hslash hcs
      obtain ⟨ds, hds⟩ := hbehind '*' (by decide) ds hcs
      exact hblock ds hslash hds

/-- A string that is not closed ends in front of a newline as it ends with the text. -/
theorem Quoted.scan_newline (p : Position) (cs tail : List Char) : scan p (cs ++ '\n' :: tail) = scan p cs := by
  fun_induction scan p cs with
  | case1 | case2 | case3 => rfl
  | case4 p c cs d hd ih =>
    rw [List.cons_append, List.cons_append, scan, hd, ih]
  | case5 p c cs hc ih =>
    rw [List.cons_append, List.cons_append, scan, hc, ← List.cons_append, ih]
  | case6 p c cs hquote hline hslash ih =>
    by_cases hc : c = '\\'
    · subst hc
      -- the backslash is the last character, and what follows it is no escape either way
      cases cs with
      | nil => rfl
      | cons d cs => exact absurd rfl (hslash d cs rfl)
    · rw [List.cons_append, scan, ih]
      · exact hquote
      · exact hline
      · exact fun _ _ h _ => hc h

/-- What holds no newline and fits in front of one fits without it. -/
theorem prefix_of_prefix_newline {ds : List Char} (h : ds <+: cs ++ '\n' :: tail) (hline : '\n' ∉ ds) : ds <+: cs := by
  rcases List.prefix_or_prefix_of_prefix h (List.prefix_append cs _) with hds | ⟨es, rfl⟩
  · exact hds
  · rw [List.prefix_append_right_inj] at h
    cases es with
    | nil => simp
    | cons e es =>
      obtain ⟨rfl, -⟩ := List.cons_prefix_cons.1 h
      exact absurd (List.mem_append_right cs List.mem_cons_self) hline

/-- Texts that begin with the same forms begin with the same token. -/
theorem munch_congr {ds : List Char} (hcs : cs ≠ []) (hds : ds ≠ [])
    (h : ∀ k fs, TokenKind.Form k fs → (fs <+: cs ↔ fs <+: ds)) : munch cs = munch ds := by
  by_cases herror : (munch cs).1 = .error
  · have herror' : (munch ds).1 = .error := by
      by_contra hform
      have hform := form_munch hds hform
      exact (hform.le_munch ((h _ _ hform).2 (List.take_prefix _ _))).2 herror
    obtain ⟨_, _, -, hlength, -⟩ := munch_error herror
    obtain ⟨_, _, -, hlength', -⟩ := munch_error herror'
    exact Prod.ext (herror.trans herror'.symm) (hlength.trans hlength'.symm)
  · have hform := form_munch hcs herror
    have hfront := (h _ _ hform).1 (List.take_prefix _ _)
    obtain ⟨hle, herror'⟩ := hform.le_munch hfront
    have hform' := form_munch hds herror'
    have hle' := (hform'.le_munch ((h _ _ hform').2 (List.take_prefix _ _))).1
    rw [List.length_take_of_le (munch_le _)] at hle hle'
    have hlength := Nat.le_antisymm hle hle'
    have htake : cs.take (munch cs).2 = ds.take (munch ds).2 := by
      rw [List.prefix_iff_eq_take.1 hfront, List.length_take_of_le (munch_le _), hlength]
    rw [htake] at hform
    exact Prod.ext (hform.unique hform') hlength

/-- No form reaches over a newline, so the longest token in front of one is the longest without it. -/
theorem munch_newline (h : cs ≠ []) (tail : List Char) : munch (cs ++ '\n' :: tail) = munch cs := by
  refine munch_congr (List.append_ne_nil_of_left_ne_nil h _) h fun k fs hform => ?_
  constructor
  · exact fun hfront => prefix_of_prefix_newline hfront fun hline => absurd (hform.no_blank _ hline) (by decide)
  · exact fun hfront => hfront.trans (List.prefix_append cs _)

/-! ## Steps and walks in front of a newline -/

namespace Scanner

variable {s : Scanner}

/-- A scanner whose text goes on. -/
def extend (s : Scanner) (ds : List Char) : Scanner := { s with rest := s.rest ++ ds }

theorem skip_extend {n : Nat} (h : n ≤ s.rest.length) (ds : List Char) :
    (s.extend ds).skip n = (s.skip n).extend ds := by
  simp only [skip, extend, List.take_append_of_le_length h, List.drop_append_of_le_length h]

theorem readQuoted_newline (h : s.rest ≠ []) (tail : List Char) :
    (s.extend ('\n' :: tail)).readQuoted = (s.readQuoted.1, s.readQuoted.2.extend ('\n' :: tail)) := by
  have hpos : 1 ≤ s.rest.length := List.length_pos_iff.2 h
  have hscan : Quoted.scan ((s.skip 1).extend ('\n' :: tail)).pos ((s.skip 1).extend ('\n' :: tail)).rest =
      Quoted.scan (s.skip 1).pos (s.skip 1).rest := Quoted.scan_newline ..
  have htaken : (Quoted.scan (s.skip 1).pos (s.skip 1).rest).taken ≤ (s.rest.drop 1).length := Quoted.scan_taken_le ..
  rw [List.length_drop] at htaken
  simp only [readQuoted]
  rw [skip_extend hpos, hscan, skip_extend (by omega)]
  rfl

theorem readMunched_newline (h : s.rest ≠ []) (tail : List Char) :
    (s.extend ('\n' :: tail)).readMunched = (s.readMunched.1, s.readMunched.2.extend ('\n' :: tail)) := by
  have hmunch : munch (s.extend ('\n' :: tail)).rest = munch s.rest := munch_newline h tail
  have hle := munch_le s.rest
  have htake : (s.extend ('\n' :: tail)).rest.take (munch s.rest).2 = s.rest.take (munch s.rest).2 :=
    List.take_append_of_le_length hle
  simp only [readMunched]
  rw [hmunch, htake, skip_extend hle]
  rfl

theorem readToken_newline (h : s.rest ≠ []) (tail : List Char) :
    (s.extend ('\n' :: tail)).readToken = (s.readToken.1, s.readToken.2.extend ('\n' :: tail)) := by
  rcases s.readToken_cases with ⟨hnil, -⟩ | ⟨cs, hquote, hread⟩ | ⟨-, hquote, hread⟩
  · exact absurd hnil h
  · have hquote' : (s.extend ('\n' :: tail)).rest = '"' :: (cs ++ '\n' :: tail) := by
      rw [extend, hquote]
      rfl
    rw [hread, readToken_quoted hquote', readQuoted_newline h]
  · have hne : s.rest ++ '\n' :: tail ≠ [] := List.append_ne_nil_of_left_ne_nil h _
    have hhead : (s.rest ++ '\n' :: tail).head? ≠ some '"' := by
      obtain ⟨c, ds, hcs⟩ := List.exists_cons_of_ne_nil h
      rw [hcs] at hquote ⊢
      exact hquote
    rw [hread, @readToken_munched (s.extend ('\n' :: tail)) hne hhead, readMunched_newline h]

/-- Behind its gap, a scanner that has closed its comments stands as it would without the newline. -/
theorem skipGap_extend (h : (skipGap .between s.pos s.rest).errors = []) (hrest : s.behindGap.rest ≠ [])
    (tail : List Char) :
    skipGap .between s.pos (s.rest ++ '\n' :: tail) = ⟨s.behindGap.rest ++ '\n' :: tail, s.behindGap.pos, []⟩ := by
  rw [skipGap_newline h]
  exact skipGap_stopped hrest _ tail

/-- In front of a newline a token is read as at the end of the text. -/
theorem next_newline (h : (skipGap .between s.pos s.rest).errors = []) (hkind : s.next.1.token.kind ≠ .eof)
    (tail : List Char) : (s.extend ('\n' :: tail)).next = (s.next.1, s.next.2.extend ('\n' :: tail)) := by
  have hrest : s.behindGap.rest ≠ [] := fun hnil => hkind (s.next_eof_iff.2 hnil)
  have hgap : skipGap .between (s.extend ('\n' :: tail)).pos (s.extend ('\n' :: tail)).rest = _ :=
    skipGap_extend h hrest tail
  have hbehind : (s.extend ('\n' :: tail)).behindGap = s.behindGap.extend ('\n' :: tail) := by
    rw [behindGap, hgap]
    rfl
  rw [next_eq, hbehind, readToken_newline hrest, hgap, next_eq s, h]

/-- Where the text would end, the walk goes on in the next line. -/
theorem next_newline_eof (h : (skipGap .between s.pos s.rest).errors = []) (hkind : s.next.1.token.kind = .eof)
    (tail : List Char) : (s.extend ('\n' :: tail)).next = next ⟨tail, (s.pos.after s.rest).advance '\n'⟩ := by
  have hrest : s.behindGap.rest = [] := s.next_eof_iff.1 hkind
  obtain ⟨ds, hds, hpos⟩ := s.moves_behindGap
  rw [hrest, List.append_nil] at hds
  have hgap : skipGap .between (s.extend ('\n' :: tail)).pos (s.extend ('\n' :: tail)).rest =
      skipGap .between ((s.pos.after s.rest).advance '\n') tail := by
    rw [hds, ← hpos]
    calc skipGap .between s.pos (s.rest ++ '\n' :: tail)
        = skipGap .between s.behindGap.pos (s.behindGap.rest ++ '\n' :: tail) := skipGap_newline h tail
      _ = skipGap .between s.behindGap.pos ('\n' :: tail) := by rw [hrest, List.nil_append]
      _ = skipGap .between (s.behindGap.pos.advance '\n') tail := rfl
  rw [next_eq, behindGap, hgap]
  rfl

/-- The walk over a text, a newline and what follows: the tokens of the text, then those of the walk from the next
line on. -/
theorem lexemes_newline (h : ∀ l ∈ s.lexemes, ∀ e ∈ l.errors, e.fault ≠ .unterminatedComment) (tail : List Char) :
    (s.extend ('\n' :: tail)).lexemes =
      s.lexemes.filter (·.token.kind ≠ .eof) ++ lexemes ⟨tail, (s.pos.after s.rest).advance '\n'⟩ := by
  have hclosed (s : Scanner) (h : ∀ e ∈ s.next.1.errors, e.fault ≠ .unterminatedComment) :
      (skipGap .between s.pos s.rest).errors = [] :=
    List.eq_nil_iff_forall_not_mem.2 fun e he => h e (List.mem_append_left _ he) (skipGap_fault e he)
  induction s using walk_induction with
  | eof s heof =>
    rw [lexemes_of_eof heof, List.forall_mem_singleton] at h
    rw [lexemes_congr (next_newline_eof (hclosed s h) heof tail), lexemes_of_eof heof]
    simp [heof]
  | token s heof ih =>
    rw [lexemes_of_not_eof heof, List.forall_mem_cons] at h
    obtain ⟨ds, hds, hpos⟩ := s.moves_next
    have hnext := next_newline (hclosed s h.1) heof tail
    have hkind : (s.extend ('\n' :: tail)).next.1.token.kind ≠ .eof := by
      rw [hnext]
      exact heof
    have hend : s.next.2.pos.after s.next.2.rest = s.pos.after s.rest := by
      rw [hds, hpos, Position.after_append]
    rw [lexemes_of_not_eof hkind, lexemes_of_not_eof heof, hnext, ih h.2, hend]
    simp [heof]

end Scanner

theorem lexemes_append_newline {source : String} (h : ∀ e ∈ (tokenize source).2, e.fault ≠ .unterminatedComment)
    (more : String) : lexemes (source ++ "\n" ++ more) =
      (lexemes source).filter (·.token.kind ≠ .eof) ++
        (lexemes more).map (Lexeme.down (source.toList.count '\n' + 1)) := by
  have hclosed : ∀ l ∈ lexemes source, ∀ e ∈ l.errors, e.fault ≠ .unterminatedComment :=
    fun l hl e he => h e (List.mem_flatMap.2 ⟨l, hl, he⟩)
  have hwhole : Scanner.ofString (source ++ "\n" ++ more) = (Scanner.ofString source).extend ('\n' :: more.toList) := by
    simp [Scanner.ofString, Scanner.extend]
  have hplace : (Position.first.after source.toList).advance '\n' =
      Position.first.down (source.toList.count '\n' + 1) := by
    rw [after_first]
    show Position.mk (1 + source.toList.count '\n' + 1) 1 = ⟨1 + (source.toList.count '\n' + 1), 1⟩
    rw [Nat.add_assoc]
  rw [lexemes, hwhole, Scanner.lexemes_newline hclosed]
  show _ ++ Scanner.lexemes ⟨more.toList, (Position.first.after source.toList).advance '\n'⟩ = _
  rw [hplace]
  exact congrArg _ (Scanner.lexemes_down _ (.ofString more))

/-- The end mark comes with no fault but a comment that stays open. -/
theorem lexemes_eof_fault (source : String) :
    ∀ l ∈ lexemes source, l.token.kind = .eof → ∀ e ∈ l.errors, e.fault = .unterminatedComment := by
  refine Scanner.forall_lexemesUpTo (fun s heof e he => ?_) _ _
  rw [Scanner.next_of_nil (s.next_eof_iff.1 heof)] at he
  exact skipGap_fault e he

/-- Without an end mark that has nothing wrong with it, there is no less wrong. -/
theorem flatMap_errors_filter {ls : List Lexeme} (h : ∀ l ∈ ls, l.token.kind = .eof → l.errors = []) :
    (ls.filter (·.token.kind ≠ .eof)).flatMap Lexeme.errors = ls.flatMap Lexeme.errors := by
  induction ls with
  | nil => rfl
  | cons l ls ih =>
    obtain ⟨hl, hls⟩ := List.forall_mem_cons.1 h
    by_cases heof : l.token.kind = .eof
    · rw [List.filter_cons_of_neg (by simpa using heof), ih hls, List.flatMap_cons, hl heof, List.nil_append]
    · rw [List.filter_cons_of_pos (by simpa using heof), List.flatMap_cons, List.flatMap_cons, ih hls]

/-- A newline separates scanning. If a text leaves no comment open, then with a newline and a second text behind it it
is cut into its own tokens without the end mark, and behind them those of the second text, each so many lines further
down as the first text and the newline fill; and what is wrong is what is wrong with the first text, then what is wrong
with the second, as far down. -/
theorem tokenize_newline {source : String} (h : ∀ e ∈ (tokenize source).2, e.fault ≠ .unterminatedComment)
    (more : String) : tokenize (source ++ "\n" ++ more) =
      ((tokenize source).1.filter (·.kind ≠ .eof) ++
          (tokenize more).1.map (Token.down (source.toList.count '\n' + 1)),
        (tokenize source).2 ++ (tokenize more).2.map (Error.down (source.toList.count '\n' + 1))) := by
  have hclean : ∀ l ∈ lexemes source, l.token.kind = .eof → l.errors = [] := fun l hl heof =>
    List.eq_nil_iff_forall_not_mem.2 fun e he =>
      h e (List.mem_flatMap.2 ⟨l, hl, he⟩) (lexemes_eof_fault source l hl heof e he)
  unfold tokenize
  rw [lexemes_append_newline h, List.map_append, List.flatMap_append, flatMap_errors_filter hclean, List.map_map,
    List.flatMap_map, List.map_flatMap, List.map_map, List.filter_map]
  rfl

/-- A number with half an exponent and a string that ends with a backslash, in front of a comment to the end of the
line. -/
theorem tokenize_newline_backslash :
    (∀ e ∈ (tokenize "&\n1.e+ \"b\\").2, e.fault ≠ .unterminatedComment) ∧
    tokenize ("&\n1.e+ \"b\\" ++ "\n" ++ "\tc // d") =
      ([⟨.error, "&", ⟨⟨1, 1⟩, ⟨1, 2⟩⟩⟩, ⟨.floatLiteral, "1.", ⟨⟨2, 1⟩, ⟨2, 3⟩⟩⟩, ⟨.ident, "e", ⟨⟨2, 3⟩, ⟨2, 4⟩⟩⟩,
        ⟨.plus, "+", ⟨⟨2, 4⟩, ⟨2, 5⟩⟩⟩, ⟨.stringLiteral, "b\\", ⟨⟨2, 6⟩, ⟨2, 9⟩⟩⟩,
        ⟨.ident, "c", ⟨⟨3, 9⟩, ⟨3, 10⟩⟩⟩, ⟨.eof, "$", ⟨⟨3, 15⟩, ⟨3, 15⟩⟩⟩],
        [⟨.illegalCharacter "&", ⟨⟨1, 1⟩, ⟨1, 2⟩⟩⟩, ⟨.unterminatedString "b\\", ⟨⟨2, 6⟩, ⟨2, 9⟩⟩⟩]) := by
  have hclosed : ∀ e ∈ (tokenize "&\n1.e+ \"b\\").2, e.fault ≠ .unterminatedComment := by decide
  refine ⟨hclosed, ?_⟩
  rw [tokenize_newline hclosed]
  decide

end VCLang
