/-
Runs of a token stream that is asked in two ways, in any order: for the next token, or for the next one of the
sequence that ends with the end mark. Either way moves the one scanner on. A token other than the end mark takes
characters of the text. Behind the first end mark the scanner stands still, so that the same mark comes again with
nothing to report. That the sequence has ended is remembered by itself, as the other way to ask neither ends nor
resumes it.
-/
import VCLang.Proofs.Token.Reported
namespace VCLang

namespace TokenStream

/-! ## Calls -/

/-- The ways to ask for a token: whatever was handed out before, or as the next one of the sequence. -/
inductive Call
  | read
  | next
  deriving DecidableEq, Repr

/-- What a call answers, and the stream behind it. -/
def answer (t : TokenStream) : Call → Option Lexeme × TokenStream
  | .read => (some t.read.1, t.read.2)
  | .next => t.next?

/-- A call on a stream, its answer and the stream behind it. -/
structure Event where
  call : Call
  before : TokenStream
  answer : Option Lexeme
  after : TokenStream

/-- The event that a call is on this stream. -/
def event (t : TokenStream) (c : Call) : Event := ⟨c, t, (t.answer c).1, (t.answer c).2⟩

/-- The events of a run of calls. -/
def run (t : TokenStream) : List Call → List Event
  | [] => []
  | c :: cs => t.event c :: (t.event c).after.run cs

/-- The stream behind a run of calls. -/
def afterCalls (t : TokenStream) (cs : List Call) : TokenStream := cs.foldl (fun t c => (t.event c).after) t

/-- The answer is the end mark. -/
def Event.isEnd (e : Event) : Bool := e.answer.any fun l => l.token.kind = .eof

/-- The answer is a token, and not the end mark. -/
def Event.isToken (e : Event) : Bool := e.answer.any fun l => l.token.kind ≠ .eof

variable {t t' : TokenStream} {e : Event} {p : Position}

/-! ## One call -/

theorem event_read (t : TokenStream) :
    t.event .read = ⟨.read, t, some t.scanner.next.1, ⟨t.scanner.next.2, t.finished⟩⟩ := rfl

theorem event_next (h : t.finished = false) : t.event .next =
    ⟨.next, t, some t.scanner.next.1, ⟨t.scanner.next.2, t.scanner.next.1.token.kind = .eof⟩⟩ := by
  rw [event, answer, next?, h]
  rfl

theorem event_finished (h : t.finished = true) : t.event .next = ⟨.next, t, none, t⟩ := by
  rw [event, answer, next?, if_pos h]

/-- A call on a sequence that has ended does nothing. Every other call asks the scanner. -/
theorem event_cases (t : TokenStream) (c : Call) :
    (c = .next ∧ t.finished = true ∧ t.event c = ⟨c, t, none, t⟩) ∨
    ∃ finished, t.event c = ⟨c, t, some t.scanner.next.1, ⟨t.scanner.next.2, finished⟩⟩ := by
  cases c with
  | read => exact .inr ⟨_, t.event_read⟩
  | next =>
    cases hfinished : t.finished with
    | false => exact .inr ⟨_, event_next hfinished⟩
    | true => exact .inl ⟨rfl, rfl, event_finished hfinished⟩

theorem answer_eq_none_iff (t : TokenStream) (c : Call) :
    (t.event c).answer = none ↔ c = .next ∧ t.finished = true := by
  cases c with
  | read => simp [event_read]
  | next =>
    cases hfinished : t.finished with
    | false => simp [event_next hfinished]
    | true => simp [event_finished hfinished]

/-- The sequence has ended if it had, or if its next token was the end mark just now. -/
theorem finished_event (t : TokenStream) (c : Call) :
    (t.event c).after.finished = true ↔ t.finished = true ∨ c = .next ∧ (t.event c).isEnd = true := by
  cases c with
  | read => simp [event_read]
  | next =>
    cases hfinished : t.finished with
    | false => simp [event_next hfinished, Event.isEnd]
    | true => simp [event_finished hfinished, hfinished]

/-- A call moves the scanner on or leaves it where it is. -/
theorem moves_event (t : TokenStream) (c : Call) : t.scanner.Moves (t.event c).after.scanner := by
  rcases t.event_cases c with ⟨-, -, hevent⟩ | ⟨finished, hevent⟩ <;> rw [hevent]
  · exact .refl _
  · exact t.scanner.moves_next

/-- A token takes a character at least. -/
theorem length_event_lt {c : Call} (h : (t.event c).isToken = true) :
    (t.event c).after.scanner.rest.length < t.scanner.rest.length := by
  rcases t.event_cases c with ⟨-, -, hevent⟩ | ⟨finished, hevent⟩ <;> rw [hevent] at h ⊢
  · cases h
  · exact Scanner.length_next_lt (of_decide_eq_true h)

/-- Behind an end mark the scanner is at the end of the text, where the mark stands. -/
theorem event_end {c : Call} {l : Lexeme} (h : (t.event c).answer = some l) (heof : l.token.kind = .eof) :
    ∃ p, l.token = .eofAt p ∧ (t.event c).after.scanner = ⟨[], p⟩ := by
  rcases t.event_cases c with ⟨-, -, hevent⟩ | ⟨finished, hevent⟩ <;> rw [hevent] at h ⊢
  · cases h
  · cases h
    have hnext := Scanner.next_of_nil (t.scanner.next_eof_iff.1 heof)
    exact ⟨t.scanner.behindGap.pos, by rw [hnext], by rw [hnext]⟩

/-- At the end of the text a call answers the end mark there, with nothing to report, or that the sequence has ended;
the scanner stays. -/
theorem event_at_end (h : t.scanner = ⟨[], p⟩) (c : Call) :
    (t.event c).after.scanner = ⟨[], p⟩ ∧
    ((t.event c).answer = some ⟨.eofAt p, []⟩ ∨ c = .next ∧ (t.event c).answer = none) := by
  rcases t.event_cases c with ⟨hcall, -, hevent⟩ | ⟨finished, hevent⟩ <;> rw [hevent]
  · exact ⟨h, .inr ⟨hcall, rfl⟩⟩
  · rw [h]
    exact ⟨rfl, .inl rfl⟩

/-- A comment that stays open is reported with the end mark. -/
theorem event_unterminatedComment {c : Call} {l : Lexeme} (h : (t.event c).answer = some l)
    (hopen : ∃ e ∈ l.errors, e.fault = .unterminatedComment) : l.token.kind = .eof := by
  rcases t.event_cases c with ⟨-, -, hevent⟩ | ⟨finished, hevent⟩ <;> rw [hevent] at h
  · cases h
  · cases h
    exact (Scanner.next_of_unterminatedComment hopen).1

/-! ## Runs of calls -/

/-- What stands between the events of a run: each is that of its call on the stream behind the calls before it. -/
theorem run_split {calls : List Call} {es fs : List Event} (h : t.run calls = es ++ e :: fs) :
    ∃ cs ds, es = t.run cs ∧ e = (t.afterCalls cs).event e.call ∧ fs = e.after.run ds := by
  induction es generalizing t calls with
  | nil =>
    cases calls with
    | nil => cases h
    | cons c cs =>
      cases h
      exact ⟨[], cs, rfl, rfl, rfl⟩
  | cons e' es ih =>
    cases calls with
    | nil => cases h
    | cons c cs =>
      obtain ⟨rfl, hrest⟩ := List.cons.inj h
      obtain ⟨cs', ds, hes, he, hfs⟩ := ih hrest
      exact ⟨c :: cs', ds, by rw [run, ← hes], he, hfs⟩

theorem exists_event_of_mem {calls : List Call} (h : e ∈ t.run calls) : ∃ t' : TokenStream, e = t'.event e.call := by
  obtain ⟨es, fs, hrun⟩ := List.append_of_mem h
  obtain ⟨cs, -, -, he, -⟩ := run_split hrun
  exact ⟨t.afterCalls cs, he⟩

/-- The sequence has ended behind a run if it had before, or if a call of the run for its next token gave the end
mark. -/
theorem finished_afterCalls (t : TokenStream) (cs : List Call) : (t.afterCalls cs).finished = true ↔
    t.finished = true ∨ ∃ e ∈ t.run cs, e.call = .next ∧ e.isEnd = true := by
  induction cs generalizing t with
  | nil => simp [afterCalls, run]
  | cons c cs ih =>
    show ((t.event c).after.afterCalls cs).finished = true ↔ _
    rw [ih, finished_event, run, or_assoc]
    simp [event]

/-- Each token that a run hands out shortens the text that is left. -/
theorem countP_run_le (t : TokenStream) (cs : List Call) :
    (t.run cs).countP Event.isToken + (t.afterCalls cs).scanner.rest.length ≤ t.scanner.rest.length := by
  induction cs generalizing t with
  | nil => exact Nat.le_of_eq (Nat.zero_add _)
  | cons c cs ih =>
    have hrest := ih (t.event c).after
    have hall : t.afterCalls (c :: cs) = (t.event c).after.afterCalls cs := rfl
    rw [run, List.countP_cons, hall]
    by_cases htoken : (t.event c).isToken = true
    · have hlt := length_event_lt htoken
      rw [if_pos htoken]
      omega
    · -- a call without a token takes what it likes, but gives nothing back
      obtain ⟨ds, hds, -⟩ := t.moves_event c
      have hle := congrArg List.length hds
      rw [List.length_append] at hle
      rw [if_neg htoken]
      omega

/-- From the end of the text on, all calls of a run answer the same. -/
theorem run_at_end (h : t.scanner = ⟨[], p⟩) (cs : List Call) : ∀ e ∈ t.run cs,
    e.answer = some ⟨.eofAt p, []⟩ ∨ e.call = .next ∧ e.answer = none := by
  induction cs generalizing t with
  | nil => exact fun _ he => nomatch he
  | cons c cs ih =>
    obtain ⟨hstays, hanswer⟩ := event_at_end h c
    rw [run, List.forall_mem_cons]
    exact ⟨hanswer, ih hstays⟩

/-! ## Progress and the end -/

/-- The events of a run on the stream of a text go on to the end of the text and stay there. -/
structure Settles (source : String) (events : List Event) : Prop where
  /-- A token that is not the end mark takes characters. -/
  progress : ∀ e ∈ events, e.isToken = true → ∃ ds, ds ≠ [] ∧ e.before.scanner.rest = ds ++ e.after.scanner.rest ∧
    e.after.scanner.pos = e.before.scanner.pos.after ds
  /-- There are not more of them than characters. -/
  bounded : events.countP Event.isToken ≤ source.toList.length
  /-- Behind an end mark every token is that mark, and nothing is reported. -/
  sticky : ∀ es e fs l, events = es ++ e :: fs → e.answer = some l → l.token.kind = .eof → l.token.spelling = "$" ∧
    ∀ f ∈ fs, f.answer = some ⟨l.token, []⟩ ∨ f.call = .next ∧ f.answer = none
  /-- A comment that stays open leads to the end mark. -/
  comment : ∀ e ∈ events, ∀ l, e.answer = some l → (∃ err ∈ l.errors, err.fault = .unterminatedComment) →
    l.token.kind = .eof
  /-- The sequence has ended where an earlier call for its next token gave the end mark, and there alone. -/
  exhausted : ∀ es e fs, events = es ++ e :: fs →
    (e.answer = none ↔ e.call = .next ∧ ∃ f ∈ es, f.call = .next ∧ f.isEnd = true)

/-- However the two ways to ask for a token follow each other, a token that is not the end mark takes characters of
the text, so that there are not more of them than characters; from the first end mark on, also that behind an open
comment, whoever asks for a token gets this mark and no report; and the sequence is over just where it has handed out
an end mark, whatever was asked otherwise. -/
theorem run_settles (source : String) (calls : List Call) : Settles source ((ofString source).run calls) where
  progress e he htoken := by
    obtain ⟨t, ht⟩ := exists_event_of_mem he
    rw [ht] at htoken ⊢
    obtain ⟨ds, hrest, hpos⟩ := t.moves_event e.call
    -- what is left is shorter, so the scanner has moved over something
    have hlt := length_event_lt htoken
    refine ⟨ds, ?_, hrest, hpos⟩
    rintro rfl
    rw [← List.nil_append (t.event e.call).after.scanner.rest, ← hrest] at hlt
    exact Nat.lt_irrefl _ hlt
  bounded := Nat.le_of_add_right_le (countP_run_le (ofString source) calls)
  sticky es e fs l hrun hanswer heof := by
    obtain ⟨cs, ds, -, he, rfl⟩ := run_split hrun
    rw [he] at hanswer ⊢
    obtain ⟨p, htoken, hscanner⟩ := event_end hanswer heof
    rw [htoken]
    exact ⟨rfl, run_at_end hscanner ds⟩
  comment e he l hanswer hopen := by
    obtain ⟨t, ht⟩ := exists_event_of_mem he
    rw [ht] at hanswer
    exact event_unterminatedComment hanswer hopen
  exhausted es e fs hrun := by
    obtain ⟨cs, -, rfl, he, -⟩ := run_split hrun
    have hfinished := finished_afterCalls (ofString source) cs
    rw [he, answer_eq_none_iff, hfinished]
    simp [ofString, event]

/-- The end mark is reported once, and ends the sequence only when it is the next token of it. -/
example : ((ofString "x/*").run [.read, .read, .next, .next]).map Event.answer =
    [some ⟨⟨.ident, "x", ⟨⟨1, 1⟩, ⟨1, 2⟩⟩⟩, []⟩, some ⟨.eofAt ⟨1, 4⟩, [⟨.unterminatedComment, ⟨⟨1, 2⟩, ⟨1, 4⟩⟩⟩]⟩,
      some ⟨.eofAt ⟨1, 4⟩, []⟩, none] := by
  decide

end TokenStream

end VCLang
