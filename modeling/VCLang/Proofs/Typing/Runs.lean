/-
Checks that report nothing. A check runs from a state to a value and a state if it ends with these and has
reported no error. Each function of the check of expressions has one lemma here, which says exactly when it
runs and with what: nothing else unfolds it.
-/
import Mathlib.Tactic.Common
import VCLang.Proofs.Typing.Static
import VCLang.Typing.Program
namespace VCLang

namespace Check

variable {σ α β : Type} {s s' s'' : σ}

/-- A check ends with a value and a state and reports nothing. -/
def Runs (m : Check σ α) (s : σ) (a : α) (s' : σ) : Prop := m s = ⟨a, s', []⟩

@[simp] theorem runs_pure {a b : α} : (pure a : Check σ α).Runs s b s' ↔ b = a ∧ s' = s := by
  unfold Runs
  rw [pure_apply, Outcome.mk.injEq]
  constructor
  · rintro ⟨rfl, rfl, -⟩
    exact ⟨rfl, rfl⟩
  · rintro ⟨rfl, rfl⟩
    exact ⟨rfl, rfl, rfl⟩

/-- A sequence runs exactly if its first part runs and the second runs from there. -/
@[simp] theorem runs_bind {m : Check σ α} {f : α → Check σ β} {b : β} :
    (m >>= f).Runs s b s'' ↔ ∃ a s', m.Runs s a s' ∧ (f a).Runs s' b s'' := by
  unfold Runs
  rw [bind_apply]
  rcases hm : m s with ⟨a, s', errors⟩
  constructor
  · intro h
    rw [Outcome.mk.injEq, List.append_eq_nil_iff] at h
    obtain ⟨hv, hs, rfl, he⟩ := h
    refine ⟨a, s', rfl, ?_⟩
    rcases hf : f a s' with ⟨b', s₂, errors'⟩
    simp only [hf] at hv hs he
    rw [hv, hs, he]
  · rintro ⟨a', s₁, ha, hf⟩
    cases ha
    simp only [hf, List.append_nil]

@[simp] theorem runs_map {m : Check σ α} {f : α → β} {b : β} :
    (f <$> m).Runs s b s' ↔ ∃ a, m.Runs s a s' ∧ b = f a := by
  rw [map_eq_pure_bind, runs_bind]
  constructor
  · rintro ⟨a, s₁, hm, hf⟩
    obtain ⟨rfl, rfl⟩ := runs_pure.1 hf
    exact ⟨a, hm, rfl⟩
  · rintro ⟨a, hm, rfl⟩
    exact ⟨a, s', hm, runs_pure.2 ⟨rfl, rfl⟩⟩

@[simp] theorem not_runs_report {f : Fault} {span : Span} {u : Unit} :
    ¬ (report f span : Check σ Unit).Runs s u s' := by
  intro h
  cases congrArg Outcome.errors h

@[simp] theorem runs_reportOption {f : Option Fault} {span : Span} {u : Unit} :
    (reportOption f span : Check σ Unit).Runs s u s' ↔ f = none ∧ s' = s := by
  cases f with
  | none => simp [reportOption]
  | some f => simp [reportOption]

@[simp] theorem runs_get {a : σ} : (get : Check σ σ).Runs s a s' ↔ a = s ∧ s' = s := by
  unfold Runs
  rw [get_apply, Outcome.mk.injEq]
  constructor
  · rintro ⟨rfl, rfl, -⟩
    exact ⟨rfl, rfl⟩
  · rintro ⟨rfl, rfl⟩
    exact ⟨rfl, rfl, rfl⟩

theorem runs_get_bind {f : σ → Check σ α} {a : α} : (get >>= f).Runs s a s' ↔ (f s).Runs s a s' := by
  rw [runs_bind]
  constructor
  · rintro ⟨_, _, h, hf⟩
    obtain ⟨rfl, rfl⟩ := runs_get.1 h
    exact hf
  · intro hf
    exact ⟨s, s, runs_get.2 ⟨rfl, rfl⟩, hf⟩

@[simp] theorem runs_modify {f : σ → σ} {u : Unit} : (modify f).Runs s u s' ↔ s' = f s := by
  unfold Runs
  rw [modify_apply, Outcome.mk.injEq]
  constructor
  · rintro ⟨-, rfl, -⟩
    rfl
  · rintro rfl
    exact ⟨rfl, rfl, rfl⟩

/-- A report under a condition. -/
@[simp] theorem runs_ite_report {c : Prop} [Decidable c] {f : Fault} {span : Span} {u : Unit} :
    (if c then report f span else pure () : Check σ Unit).Runs s u s' ↔ ¬ c ∧ s' = s := by
  split_ifs with h <;> simp [h]

/-- A report under a condition, after which the check goes on in any case. -/
@[simp] theorem runs_ite_report_bind {c : Prop} [Decidable c] {f : Fault} {span : Span} {m : Unit → Check σ α}
    {m' : Check σ α} {a : α} :
    (if c then report f span >>= m else m').Runs s a s' ↔ ¬ c ∧ m'.Runs s a s' := by
  split_ifs with h <;> simp [h]

theorem errors_eq_nil_iff {m : Check σ α} : (m s).errors = [] ↔ ∃ a s', m.Runs s a s' := by
  unfold Runs
  rcases hm : m s with ⟨a, s', errors⟩
  constructor
  · rintro rfl
    exact ⟨a, s', rfl⟩
  · rintro ⟨b, s₂, h⟩
    cases h
    rfl

end Check

namespace Typing

open Check

variable {env : Env} {whole : Bool} {info : ExprInfo} {ident : Ident} {e e' : Expr} {n n' : Nat}

/-! ## Conversions -/

@[simp] theorem runs_freshExpr {id : ExprId} : freshExpr.Runs n id n' ↔ id = ⟨n⟩ ∧ n' = n + 1 := by
  unfold Runs freshExpr
  rw [Outcome.mk.injEq]
  constructor
  · rintro ⟨rfl, rfl, -⟩
    exact ⟨rfl, rfl⟩
  · rintro ⟨rfl, rfl⟩
    exact ⟨rfl, rfl, rfl⟩

/-- The conversion of an expression, if one is asked for; `n` is the number of the next new expression. -/
inductive Widened (n : Nat) (e : Expr) : Bool → Expr → Nat → Prop
  | keep : Widened n e false e n
  | widen : Widened n e true (.intToFloat ⟨⟨n⟩, e.span, some .float⟩ e) (n + 1)

@[simp] theorem runs_widenIf {needed : Bool} : (widenIf needed e).Runs n e' n' ↔ Widened n e needed e' n' := by
  unfold widenIf
  cases needed with
  | false =>
    simp only [Bool.false_eq_true, if_false, runs_pure]
    constructor
    · rintro ⟨rfl, rfl⟩
      exact .keep
    · rintro ⟨⟩
      exact ⟨rfl, rfl⟩
  | true =>
    simp only [if_true, widen, runs_bind, runs_freshExpr, runs_pure]
    constructor
    · rintro ⟨_, _, ⟨rfl, rfl⟩, rfl, rfl⟩
      exact .widen
    · rintro ⟨⟩
      exact ⟨_, _, ⟨rfl, rfl⟩, rfl, rfl⟩

/-- A conversion never fails. -/
theorem Widened.exists (n : Nat) (e : Expr) (needed : Bool) : ∃ e' n', Widened n e needed e' n' := by
  cases needed
  · exact ⟨_, _, .keep⟩
  · exact ⟨_, _, .widen⟩

/-- An expression that fits where it stands. -/
@[simp] theorem runs_settle_store {f : Fault} {target : Ty} {span : Span} :
    (settle (storeRuling f target e.type) span e).Runs n e' n' ↔
      target.assignable e.type = true ∧ Widened n e (target.needsIntToFloat e.type) e' n' := by
  unfold storeRuling
  split_ifs with h <;> simp [settle, h]

@[simp] theorem runs_settle_argument {param : Ty} {span : Span} :
    (settle (argumentRuling param e.type) span e).Runs n e' n' ↔
      argumentFits param e.type = true ∧ Widened n e (param.needsIntToFloat e.type) e' n' := by
  unfold argumentRuling
  split_ifs with h <;> simp [settle, h]

end Typing

end VCLang
