/-
Computations over a state that report errors as they go on, and never stop.
-/
import VCLang.Diagnostic.Basic
namespace VCLang

/-- What a computation ends with. -/
structure Outcome (σ α : Type) where
  value : α
  state : σ
  /-- What it has reported, in order. -/
  errors : List Error

/-- A computation over a state that reports errors. -/
def Check (σ α : Type) : Type := σ → Outcome σ α

namespace Check

variable {σ α β : Type}

protected def pure (a : α) : Check σ α := fun s => ⟨a, s, []⟩

protected def bind (m : Check σ α) (f : α → Check σ β) : Check σ β := fun s =>
  let o := m s
  let r := f o.value o.state
  ⟨r.value, r.state, o.errors ++ r.errors⟩

instance : Monad (Check σ) where
  pure := Check.pure
  bind := Check.bind

/-- Reports a fault at a span. -/
def report (f : Fault) (span : Span) : Check σ Unit := fun s => ⟨(), s, [⟨f, span⟩]⟩

/-- Reports a fault, if there is one. -/
def reportOption (f : Option Fault) (span : Span) : Check σ Unit :=
  match f with
  | none => pure ()
  | some f => report f span

def get : Check σ σ := fun s => ⟨s, s, []⟩

def modify (f : σ → σ) : Check σ Unit := fun s => ⟨(), f s, []⟩

@[simp] theorem pure_apply (a : α) (s : σ) : (pure a : Check σ α) s = ⟨a, s, []⟩ := rfl

@[simp] theorem bind_apply (m : Check σ α) (f : α → Check σ β) (s : σ) :
    (m >>= f) s = ⟨(f (m s).value (m s).state).value, (f (m s).value (m s).state).state,
      (m s).errors ++ (f (m s).value (m s).state).errors⟩ := rfl

@[simp] theorem report_apply (f : Fault) (span : Span) (s : σ) :
    (report f span : Check σ Unit) s = ⟨(), s, [⟨f, span⟩]⟩ := rfl

@[simp] theorem get_apply (s : σ) : (get : Check σ σ) s = ⟨s, s, []⟩ := rfl

@[simp] theorem modify_apply (f : σ → σ) (s : σ) : modify f s = ⟨(), f s, []⟩ := rfl

instance : LawfulMonad (Check σ) := LawfulMonad.mk' (Check σ)
  (fun m => by funext s; exact congrArg (Outcome.mk _ _) (List.append_nil _))
  (fun a f => by funext s; simp)
  (fun m f g => by funext s; simp)

end Check

end VCLang
