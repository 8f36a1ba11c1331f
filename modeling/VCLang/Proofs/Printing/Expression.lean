/-
Reading a printed expression. What is printed of an expression that a text can spell is one of its spellings: the one
with no parentheses but those that it needs.
-/
import VCLang.Proofs.Printing.Climbing
import VCLang.Proofs.Printing.Scanning
namespace VCLang

/-! ## Written expressions -/

/-- An expression that a text can spell. -/
inductive Expr.Written : Expr → Prop
  | binary {info : ExprInfo} {op : Operator} {left right : Expr} : op.IsInfix → Written left → Written right →
    Written (.binary info op left right)
  | unary {info : ExprInfo} {op : Operator} {operand : Expr} : op.IsSign → Written operand →
    Written (.unary info op operand)
  | assign {info : ExprInfo} {target value : Expr} : Written target → Written value →
    Written (.assign info target value)
  | var {info : ExprInfo} {ident : Ident} : ident.word.Legible → Written (.var info ident)
  | arrayAccess {info : ExprInfo} {ident : Ident} {index : Expr} : ident.word.Legible → Written index →
    Written (.arrayAccess info ident index)
  | call {info : ExprInfo} {ident : Ident} {args : List Expr} : ident.word.Legible → (∀ a ∈ args, Written a) →
    Written (.call info ident args)
  | literal {info : ExprInfo} {value : Literal} : value.word.Legible → Written (.literal info value)

namespace Expr

/-- An expression in the parentheses that it needs. -/
theorem Spelt.parenthesisedIf {e : Expr} {ws : List Word} {needed : Bool} {least : Nat}
    (h : e.Spelt e.power.rank ws) (hlowest : Power.lowest.below e.power = true)
    (hneeded : needed = false → least ≤ e.power.rank) : e.Spelt least (Word.parenthesisedIf needed ws) := by
  cases needed with
  | false => exact h.mono (hneeded rfl)
  | true => exact .group (h.mono (Power.below_iff.1 hlowest))

namespace Written

theorem lowest_below {e : Expr} (h : e.Written) : Power.lowest.below e.power = true := by
  cases h with
  | binary hop => exact Power.below_iff.2 (Nat.lt_of_le_of_lt (Nat.zero_le _) (Power.below_iff.1 hop.below.1))
  | _ => rfl

/-- What is printed of an expression is a spelling of it. -/
theorem spelt {e : Expr} (h : e.Written) : e.Spelt e.power.rank e.words := by
  induction h with
  | binary hop hl hr ihl ihr =>
    refine .binary hop le_rfl (ihl.parenthesisedIf hl.lowest_below fun hneeded => ?_)
      (ihr.parenthesisedIf hr.lowest_below fun hneeded => ?_)
    · exact Nat.le_of_not_lt (of_decide_eq_false hneeded)
    · exact Power.below_iff.1 (by simpa using hneeded)
  | unary hop ho ih =>
    exact .unary hop (ih.parenthesisedIf ho.lowest_below fun hneeded => Power.below_iff.1 (by simpa using hneeded))
  | assign ht hv iht ihv =>
    refine .assign le_rfl (iht.parenthesisedIf ht.lowest_below fun hneeded => ?_)
      (ihv.mono (Power.below_iff.1 hv.lowest_below))
    exact Power.below_iff.1 (by simpa using hneeded)
  | var => exact .var
  | arrayAccess _ hi ih => exact .arrayAccess (ih.mono (Power.below_iff.1 hi.lowest_below))
  | @call info ident args _ hargs ih =>
    rw [words, wordsEach_eq]
    refine .call (List.length_map words).symm ?_
    have hzip : args.zip (args.map words) = args.map fun a => (a, a.words) := by
      simpa using List.zip_map' (f := fun a => a) (g := words) (l := args)
    rw [hzip, List.forall_mem_map]
    exact fun a ha => (ih a ha).mono (Power.below_iff.1 (hargs a ha).lowest_below)
  | literal => exact .literal

theorem begins {e : Expr} (h : e.Written) : Begins startsExpr e.words := h.spelt.begins

theorem takes {e : Expr} (h : e.Written) (n : Nat) :
    Parse.Takes n (Grammar.expression .standard .lowest) e.words Power.lowest.stopsAt fun e' => e'.bare = e.bare := by
  have hspelt : e.Spelt (Power.lowest.rank + 1) e.words := h.spelt.mono (Power.below_iff.1 h.lowest_below)
  exact (hspelt.takes n).before fun k hk => Power.stopsBehind_of_stopsAt hk

end Written

end Expr

end VCLang
