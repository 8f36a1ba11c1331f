/-
The rules of the check as functions of types say what the tables of the static semantics say, for types in
which nothing went wrong.
-/
import Mathlib.Tactic.Common
import VCLang.Proofs.Typing.Static
import VCLang.Typing.Program
namespace VCLang

open Static

/-- A type in which nothing went wrong. -/
def Ty.Proper : Ty → Prop
  | error => False
  | array element _ => element.Proper
  | _ => True

theorem Ty.Proper.ne_error {t : Ty} (h : t.Proper) : t ≠ .error := by
  rintro rfl
  exact h

theorem Ty.Proper.isError {t : Ty} (h : t.Proper) : t.isError = false := by
  cases t <;> first
    | rfl
    | exact h.elim

theorem Ty.isArray_eq_false_iff {t : Ty} : t.isArray = false ↔ ∀ element size, t ≠ .array element size := by
  cases t <;> simp [Ty.isArray]

/-! ## Storing and passing -/

theorem Stores.of_assignable {t s : Ty} (ht : t ≠ .error) (hs : s ≠ .error) (h : t.assignable s = true) :
    Stores t s := by
  cases t <;> cases s <;> first
    | exact .same rfl
    | exact .widened
    | contradiction

theorem assignable_of_stores {t s : Ty} (h : Stores t s) : t.assignable s = true := by
  cases h with
  | same ha => exact Ty.assignable_self ha
  | widened => rfl

/-- Storing is allowed by the function exactly where the judgement has it. -/
theorem assignable_iff {t s : Ty} (ht : t.Proper) (hs : s.Proper) : t.assignable s = true ↔ Stores t s :=
  ⟨Stores.of_assignable ht.ne_error hs.ne_error, assignable_of_stores⟩

theorem argumentFits_of_scalar {t s : Ty} (h : t.isArray = false ∨ s.isArray = false) :
    argumentFits t s = t.assignable s := by
  cases t <;> cases s <;> first
    | rfl
    | rcases h with ⟨⟨⟩⟩ | ⟨⟨⟩⟩

theorem argumentFits_iff {t s : Ty} (ht : t.Proper) (hs : s.Proper) :
    argumentFits t s = true ↔ Passes t s := by
  by_cases h : t.isArray = false ∨ s.isArray = false
  · rw [argumentFits_of_scalar h, assignable_iff ht hs]
    constructor
    · exact .scalar
    · rintro (hst | _)
      · exact hst
      · rcases h with ⟨⟨⟩⟩ | ⟨⟨⟩⟩
  · rcases t with _ | _ | _ | _ | _ | ⟨a, n⟩ | _ <;> try exact absurd (.inl rfl) h
    rcases s with _ | _ | _ | _ | _ | ⟨b, m⟩ | _ <;> try exact absurd (.inr rfl) h
    have ha : a.Proper := ht
    have hb : b.Proper := hs
    change a.assignable b = true ↔ _
    rw [assignable_iff ha hb]
    constructor
    · exact .array
    · intro hp
      cases hp with
      | scalar hst =>
        obtain ⟨⟨⟩⟩ := hst
      | array hst => exact hst

/-- A value that is stored is converted exactly where the judgement widens it. -/
theorem needsIntToFloat_iff {t s : Ty} : t.needsIntToFloat s = true ↔ t = .float ∧ s = .int := by
  cases t <;> cases s <;> simp [Ty.needsIntToFloat, Ty.isFloat, Ty.isInt]

/-- The type of an expression behind a conversion, if there is one. -/
def Ty.widened (needed : Bool) (t : Ty) : Ty := if needed then .float else t

/-- An assignment converts a value exactly as storing it does. -/
theorem assignRuling_iff {t s : Ty} {name : String} (ht : t.Proper) (hs : s.Proper) :
    assignRuling t s name = .accept (t.needsIntToFloat s) ↔ Stores t s := by
  rw [← assignable_iff ht hs]
  cases t <;> cases s <;> first
    | contradiction
    | simp [assignRuling, storeRuling, Ty.isArray, Ty.assignable]

/-! ## Operators -/

/-- The tag of an operator over operands of a type. -/
def OperandTag.of : Ty → OperandTag
  | .float => float
  | _ => int

theorem unaryRuling_iff {op : String} {a t : Ty} {tag : OperandTag} :
    unaryRuling op a = .accept (t, tag) ↔ UnaryOp op a t ∧ tag = .of a := by
  constructor
  · intro h
    unfold unaryRuling at h
    split at h
    · cases h
    · split_ifs at h with hop
      cases h
      rw [hop]
      exact ⟨.not, rfl⟩
    · split_ifs at h with hop
      cases h
      exact ⟨.sign (by simpa using hop) (by decide), rfl⟩
    · split_ifs at h with hop
      cases h
      exact ⟨.sign (by simpa using hop) (by decide), rfl⟩
    · cases h
  · rintro ⟨h, rfl⟩
    cases h with
    | not => rfl
    | sign hop ht =>
      have hop : op = "+" ∨ op = "-" := by simpa using hop
      simp only [List.mem_cons, List.not_mem_nil, or_false] at ht
      rcases ht with rfl | rfl <;> simp [unaryRuling, hop, OperandTag.of]

/-- How two operands of an operator are brought to one type. -/
def Unified.of : Ty → Ty → Unified
  | .int, .float => ⟨.float, true, false⟩
  | .float, .int => ⟨.float, false, true⟩
  | a, _ => ⟨.of a, false, false⟩

/-- Only an `int` is converted. -/
theorem int_of_unified {a b : Ty} :
    ((Unified.of a b).widenLeft = true → a = .int) ∧ ((Unified.of a b).widenRight = true → b = .int) := by
  cases a <;> cases b <;> simp [Unified.of]

theorem unify_iff {a b : Ty} {u : Unified} :
    unify a b = some u ↔ Common a b u.tag.type ∧ u = .of a b := by
  constructor
  · intro h
    cases a <;> cases b <;> cases h
    · exact ⟨.int, rfl⟩
    · exact ⟨.left, rfl⟩
    · exact ⟨.right, rfl⟩
    · exact ⟨.float, rfl⟩
  · rintro ⟨h, rfl⟩
    cases a <;> cases b <;> first
      | rfl
      | cases h

/-- The spellings of the operators of a class. -/
def OperatorClass.spellings : OperatorClass → List String
  | arithmetic => ["+", "-", "*", "/"]
  | relational => ["<", "<=", ">", ">="]
  | equality => ["==", "!="]
  | logical => ["&&", "||"]

theorem ofSpelling?_iff {op : String} {c : OperatorClass} :
    OperatorClass.ofSpelling? op = some c ↔ op ∈ c.spellings := by
  constructor
  · intro h
    unfold OperatorClass.ofSpelling? at h
    split_ifs at h with h₁ h₂ h₃ h₄ <;> cases h <;> simpa [OperatorClass.spellings]
  · intro h
    have hall : ∀ c ∈ [OperatorClass.arithmetic, .relational, .equality, .logical], ∀ op ∈ c.spellings,
        OperatorClass.ofSpelling? op = some c := by decide
    exact hall c (by cases c <;> decide) op h

/-- What an operator makes of operands stands in the table. -/
theorem binaryOp_of_apply {c : OperatorClass} {op : String} {a b t : Ty} {u : Unified}
    (hop : op ∈ c.spellings) (h : c.apply a b = some (t, u)) : BinaryOp op a b t ∧ u = .of a b := by
  cases c with
  | arithmetic =>
    obtain ⟨v, hv, hvt⟩ := Option.map_eq_some_iff.1 (show (unify a b).map _ = _ from h)
    obtain ⟨hcommon, rfl⟩ := unify_iff.1 hv
    cases hvt
    exact ⟨.arithmetic hop hcommon, rfl⟩
  | relational =>
    obtain ⟨v, hv, hvt⟩ := Option.map_eq_some_iff.1 (show (unify a b).map _ = _ from h)
    obtain ⟨hcommon, rfl⟩ := unify_iff.1 hv
    cases hvt
    exact ⟨.relational hop hcommon, rfl⟩
  | equality =>
    unfold OperatorClass.apply at h
    split at h
    · cases h
      exact ⟨.equalityBoolean hop, rfl⟩
    all_goals first
      | contradiction
      | (obtain ⟨v, hv, hvt⟩ := Option.map_eq_some_iff.1 h
         obtain ⟨hcommon, rfl⟩ := unify_iff.1 hv
         cases hvt
         exact ⟨.equality hop hcommon, rfl⟩)
  | logical =>
    unfold OperatorClass.apply at h
    split at h <;> first
      | contradiction
      | (cases h
         exact ⟨.logical hop, rfl⟩)

/-- The function of binary operators accepts nothing but what the table has, also over wrong operands. -/
theorem binaryOp_of_ruling {op : String} {a b t : Ty} {u : Unified} {leftName rightName : String}
    (h : binaryRuling op a b leftName rightName = .accept (t, u)) : BinaryOp op a b t ∧ u = .of a b := by
  unfold binaryRuling at h
  split_ifs at h
  split at h
  · rename_i r hr
    cases h
    obtain ⟨c, hc, hr⟩ := Option.bind_eq_some_iff.1 hr
    exact binaryOp_of_apply (ofSpelling?_iff.1 hc) hr
  · cases h

/-- The function of binary operators accepts what the table has. -/
theorem binaryRuling_iff {op : String} {a b t : Ty} {u : Unified} {leftName rightName : String}
    (ha : a.Proper) (hb : b.Proper) :
    binaryRuling op a b leftName rightName = .accept (t, u) ↔ BinaryOp op a b t ∧ u = .of a b := by
  constructor
  · exact binaryOp_of_ruling
  · rintro ⟨h, rfl⟩
    have accepts (c : OperatorClass) (hc : op ∈ c.spellings)
        (hbase : a.isArray = false ∧ b.isArray = false ∧ a.isString = false ∧ b.isString = false)
        (happly : c.apply a b = some (t, .of a b)) :
        binaryRuling op a b leftName rightName = .accept (t, .of a b) := by
      simp [binaryRuling, ha.isError, hb.isError, hbase, ofSpelling?_iff.2 hc, happly]
    cases h with
    | arithmetic hop hc => cases hc <;> exact accepts .arithmetic hop (by decide) rfl
    | relational hop hc => cases hc <;> exact accepts .relational hop (by decide) rfl
    | equality hop hc => cases hc <;> exact accepts .equality hop (by decide) rfl
    | equalityBoolean hop => exact accepts .equality hop (by decide) rfl
    | logical hop => exact accepts .logical hop (by decide) rfl

end VCLang
