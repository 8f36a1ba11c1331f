/-
Where reports point. What is wrong with the characters is reported where a scanner stood, a syntax error at the token
that a parse stopped at, and a fault of the meaning at the span of some node; each begins at the place of an offset of
the text, so that the line it is shown with is a line of the text. None ends further on its line than some place of
the text is, so that all of them fit into words when the places of the text do.

That a check reports at spans of the tree alone is read off the check of a relabelled tree: a relabelling that keeps
the spans of the text, and makes spans of the text of all others, leaves the tree and so the reports as they are.
-/
import VCLang.Proofs.Elaboration.Renumbering
import VCLang.Proofs.Grammar.Reports
import VCLang.Proofs.Lockstep.Program
import VCLang.Proofs.Span.Arena
import VCLang.Proofs.Span.Check
import VCLang.Proofs.Span.Grammar
import VCLang.Proofs.Text.Cursor
import VCLang.Proofs.Token.Walk
namespace VCLang

variable {text cs : List Char} {p : Position}

namespace Position

theorem le_after (p : Position) (cs : List Char) : p ≤ p.after cs := by
  rcases cs with _ | ⟨c, cs⟩
  · exact le_refl p
  · exact (before_after p (List.cons_ne_nil c cs)).le

/-- On the line that some front of what is read from `p` on leads to, and not past the column that it leads to. -/
def Reached (p : Position) (cs : List Char) (q : Position) : Prop :=
  ∃ ds, ds <+: cs ∧ q.line = (p.after ds).line ∧ q.column ≤ (p.after ds).column

variable {q : Position}

theorem reached_after {ds : List Char} (h : ds <+: cs) : Reached p cs (p.after ds) := ⟨ds, h, rfl, Nat.le_refl _⟩

theorem Reached.behind (ds : List Char) (h : Reached (p.after ds) cs q) : Reached p (ds ++ cs) q := by
  obtain ⟨front, hfront, hq⟩ := h
  rw [← after_append] at hq
  exact ⟨ds ++ front, List.prefix_append_right_inj ds |>.2 hfront, hq⟩

/-- What is reached in a whole text fits into words when the places of the text do. -/
theorem Reached.fits (h : Reached .first text q) (hfits : VCLang.Fits text) : q.Fits := by
  obtain ⟨ds, hds, hline, hcolumn⟩ := h
  have hplace := hfits ds.length hds.length_le
  rw [placeAt_eq_after, ← List.prefix_iff_eq_take.1 hds] at hplace
  exact ⟨hline ▸ hplace.1, Nat.lt_of_le_of_lt hcolumn hplace.2⟩

end Position

/-! ## Spans that point into a text -/

/-- A span that does not run backwards, begins behind some front of what is read from a position on, and ends no further
on its line than some front leads. -/
structure Span.PointsInto (p : Position) (cs : List Char) (s : Span) : Prop where
  forward : s.start ≤ s.stop
  start : ∃ ds, ds <+: cs ∧ s.start = p.after ds
  stop : Position.Reached p cs s.stop

namespace Span.PointsInto

variable {s : Span}

theorem here {q : Position} (h : p ≤ q) (hq : Position.Reached p cs q) : PointsInto p cs ⟨p, q⟩ :=
  ⟨h, ⟨[], List.nil_prefix, rfl⟩, hq⟩

/-- What a front of the text takes. -/
theorem taken {ds : List Char} (h : ds <+: cs) : PointsInto p cs ⟨p, p.after ds⟩ :=
  .here (p.le_after ds) (Position.reached_after h)

/-- What points into a rest points into the whole. -/
theorem behind (ds : List Char) (h : s.PointsInto (p.after ds) cs) : s.PointsInto p (ds ++ cs) := by
  obtain ⟨hforward, ⟨front, hfront, hstart⟩, hstop⟩ := h
  exact ⟨hforward, ⟨ds ++ front, List.prefix_append_right_inj ds |>.2 hfront, by rw [hstart, Position.after_append]⟩,
    hstop.behind ds⟩

/-- In a whole text, it begins at the place of an offset. -/
theorem exists_offset (h : s.PointsInto .first text) : ∃ i ≤ text.length, s.start = placeAt text i := by
  obtain ⟨-, ⟨ds, hds, hstart⟩, -⟩ := h
  refine ⟨ds.length, hds.length_le, ?_⟩
  rw [hstart, placeAt_eq_after, ← List.prefix_iff_eq_take.1 hds]

/-- Words keep all of it when they keep all places of the text. -/
theorem wrapped (h : s.PointsInto .first text) (hfits : Fits text) : s.wrapped = s := by
  obtain ⟨i, hi, hstart⟩ := h.exists_offset
  have hfirst : s.start.Fits := hstart ▸ hfits i hi
  rw [Span.wrapped, hfirst.wrapped, (h.stop.fits hfits).wrapped]

end Span.PointsInto

namespace Scanner

variable {s s' : Scanner}

/-- What is read from a scanner: it moves on, and what it reports points into the rest of the text. -/
structure Sound (s : Scanner) (r : Lexeme × Scanner) : Prop where
  moves : s.Moves r.2
  errors : ∀ e ∈ r.1.errors, e.span.PointsInto s.pos s.rest

end Scanner

/-- Keeps the spans of a text, and makes spans of the text of all others. -/
noncomputable def Relabelling.into (text : List Char) : Relabelling where
  __ := identity
  span s := open Classical in if s.PlacedIn text then s else spanAt text 0 0

theorem Span.PlacedIn.relabel {s : Span} (h : s.PlacedIn text) : (Relabelling.into text).span s = s := if_pos h

theorem Ident.relabel_into {i : Ident} (h : i.span.PlacedIn text) : i.relabel (.into text) = i := by
  rw [relabel, h.relabel]
  rfl

/-- A node whose span nests stays as it is. -/
theorem Arena.Nests.relabel {a : Arena} {x : Entry} (h : a.Nests text x.id) (hx : a.Holds x) :
    x.relabel (.into text) = x := by
  obtain ⟨s, hspan, hplaced, -, -, hident, hoperator⟩ := h
  rw [hx.spanOf] at hspan
  rw [hx.identOf] at hident
  rw [hx.operatorOf] at hoperator
  cases hspan
  cases x with
  | expr id node =>
    have hspan : node.span.PlacedIn text := hplaced
    have hkind : node.kind.relabel (.into text) = node.kind := by
      cases hk : node.kind <;> simp_all [Entry.ident?, Entry.operator?, ExprKind.ident?, ExprKind.operator?,
        ExprKind.relabel, Ident.relabel_into, Operator.relabel, Span.PlacedIn.relabel]
    rw [Entry.relabel, hkind, hspan.relabel]
  | stmt id node =>
    have hspan : node.span.PlacedIn text := hplaced
    rw [Entry.relabel, hspan.relabel]
  | decl id node =>
    have hspan : node.span.PlacedIn text := hplaced
    rw [Entry.relabel, hspan.relabel, Ident.relabel_into (hident _ rfl).1]

end VCLang
