/-
Faults at a place, the messages they are stored as, and the sink that keeps messages in report order.
-/
import VCLang.Text.Position
import VCLang.Diagnostic.Fault
namespace VCLang

/-- A fault and the span it is reported at. -/
structure Error where
  fault : Fault
  span : Span
  deriving DecidableEq, Repr

/-- A reported message and its span. -/
structure Diagnostic where
  message : String
  position : Span
  deriving DecidableEq, Repr

namespace Error

/-- The printed form: the span, then the text of the fault. -/
def text (e : Error) : String := s!"{e.span.text}: {e.fault.text}"

/-- The message an error is stored as: its template filled with the words it quotes. -/
def diagnostic (e : Error) : Diagnostic := ⟨fill e.fault.template e.fault.quoted, e.span⟩

end Error

namespace Diagnostic

/-- The printed form of a message. -/
def text (d : Diagnostic) : String := s!"ERROR: {d.position.text}: {d.message}"

/-- The number of a message in the catalog. -/
def code? (d : Diagnostic) : Option Nat := catalogNumber? d.message

end Diagnostic

/-- A sink: every message in report order. -/
structure Diagnostics where
  entries : List Diagnostic
  deriving DecidableEq, Repr

namespace Diagnostics

def empty : Diagnostics := ⟨[]⟩

/-- The sink that holds the messages of a run of errors. -/
def ofErrors (es : List Error) : Diagnostics := ⟨es.map Error.diagnostic⟩

/-- Files a message under a span. -/
def report (ds : Diagnostics) (template quoted : String) (position : Span) : Diagnostics :=
  ⟨ds.entries ++ [⟨fill template quoted, position⟩]⟩

/-- Files an error. -/
def reportError (ds : Diagnostics) (e : Error) : Diagnostics :=
  ds.report e.fault.template e.fault.quoted e.span

/-- How many messages were filed. -/
def size (ds : Diagnostics) : Nat := ds.entries.length

def isEmpty (ds : Diagnostics) : Bool := ds.entries.isEmpty

/-- The numbers in the catalog of the messages that have one, in report order. -/
def codes (ds : Diagnostics) : List Nat := ds.entries.filterMap Diagnostic.code?

@[simp] theorem ofErrors_entries (es : List Error) : (ofErrors es).entries = es.map Error.diagnostic := rfl

theorem isEmpty_ofErrors (es : List Error) : (ofErrors es).isEmpty = es.isEmpty := by
  cases es <;> rfl

end Diagnostics

end VCLang
