/-
The spans of what a parse builds nest. Spans are made in three ways, from one token, from two expressions with an
operator between them, and from the first token of a form to the one moved past last; in each way the span is that of
the row that the form has read, and the parts of the node are in that row. A group leaves its parentheses out: its span
begins behind the first token of the form and ends before the last one.
-/
import VCLang.Proofs.Grammar.Recognition
import VCLang.Proofs.Span.Reading
namespace VCLang

open Parse

namespace Grammar

variable {text : List Char} {d : Dispatch} {p q : Parser} {a b i k : Nat}

/-! ## Expressions -/

end Grammar

end VCLang
