/-
One more check of a checked expression. It knows of each name what the first check knew, so that it goes the same way
but at the operators: a tagged operator is none of the language, and its type becomes `error`. This is accepted wherever
the operator stands, and no operand is converted once more, since an expression that was converted is no longer of
type `int`, and one of type `error` never is.
-/
import VCLang.Proofs.Elaboration.Statement
import VCLang.Proofs.Recheck.Tree
import VCLang.Proofs.Typing.Nodes
namespace VCLang

open Static Check

variable {copies : List (Prototype × Prototype)}

/-! ## Sequences -/

section Sequences

variable {σ α β : Type} {s s' s'' : σ} {m : Check σ α} {f : α → Check σ β} {a : α} {b : β} {errors more : List Error}

theorem Check.Ends.bind (hm : m.Ends s a s' errors) (hf : (f a).Ends s' b s'' more) :
    (m >>= f).Ends s b s'' (errors ++ more) := ends_bind.2 ⟨a, s', errors, more, rfl, hm, hf⟩

/-- What is reported before a part that reports nothing is all. -/
theorem Check.Ends.bind_quiet (hm : m.Ends s a s' errors) (hf : (f a).Ends s' b s'' []) :
    (m >>= f).Ends s b s'' errors := ends_bind.2 ⟨a, s', errors, [], (List.append_nil _).symm, hm, hf⟩

/-- What is reported behind a part that reports nothing is all. -/
theorem Check.Ends.quiet_bind (hm : m.Ends s a s' []) (hf : (f a).Ends s' b s'' errors) :
    (m >>= f).Ends s b s'' errors := ends_bind.2 ⟨a, s', [], errors, rfl, hm, hf⟩

theorem Check.Ends.then_pure {g : α → β} (hm : m.Ends s a s' errors) :
    (m >>= fun a => pure (g a)).Ends s (g a) s' errors := hm.bind_quiet (ends_pure.2 ⟨rfl, rfl, rfl⟩)

end Sequences

/-! ## Types behind one more check -/

/-- A type behind one more check: the same but for a size, or `error`. -/
inductive Ty.Rechecked (t : Ty) : Ty → Prop
  | same {t' : Ty} : t.SameButSize t' → Rechecked t t'
  | error : Rechecked t .error

namespace Ty.Rechecked

variable {t t' : Ty}

theorem isArray (h : t.Rechecked t') (ht : t.isArray = false) : t'.isArray = false := by
  cases h with
  | error => rfl
  | same h =>
    cases h with
    | same => exact ht
    | size => cases ht

/-- A scalar stays what it is unless it becomes `error`. -/
theorem eq_or_error (h : t.Rechecked t') (ht : t.isArray = false) : t' = t ∨ t' = .error := by
  cases h with
  | error => exact .inr rfl
  | same h =>
    cases h with
    | same => exact .inl rfl
    | size => cases ht

end Ty.Rechecked

/-- An expression is of its type behind one more check; only an operator is of type `error`. -/
theorem Expr.Rechecked.type {e e' : Expr} (h : e.Rechecked copies e') :
    e.type.Rechecked e'.type ∧ (e.type ≠ .error → e'.type = .error → e.kind.isOperator = true) := by
  have hroot : (e.node .program).Rechecked copies (e'.node .program) := h.node
  obtain ⟨t, t', ht, ht', hsame⟩ := hroot.ty
  have htype : e.type = t := congrArg (Option.getD · Ty.error) ht
  have htype' : e'.type = t' := congrArg (Option.getD · Ty.error) ht'
  rw [htype, htype']
  split_ifs at hsame with hop
  · subst hsame
    exact ⟨.error, fun _ _ => hop⟩
  · refine ⟨.same hsame, fun hne herror => ?_⟩
    subst herror
    cases hsame
    exact absurd rfl hne

/-! ## Values where they are stored -/

/-- What was stored is accepted again, and not converted. -/
theorem storeRuling_again {f : Fault} {target t' : Ty} (h : target.Rechecked t') (ht : target.isArray = false) :
    storeRuling f target t' = .accept false := by
  rcases h.eq_or_error ht with rfl | rfl
  · rw [storeRuling, if_pos (Ty.assignable_self ht)]
    cases t' <;> rfl
  · rw [storeRuling, if_pos (Ty.assignable_error_right target)]
    cases target <;> rfl

theorem argumentRuling_again {param t t' : Ty} (h : PassedAs param t) (ht : t.Rechecked t') :
    argumentRuling param t' = .accept false := by
  cases h with
  | scalar hparam =>
    have hfits : argumentFits param t' = true := by
      rcases ht.eq_or_error hparam with rfl | rfl
      · rw [argumentFits_of_scalar (.inl hparam), Ty.assignable_self hparam]
      · exact argumentFits_error param
    rw [argumentRuling, if_pos hfits]
    rcases ht.eq_or_error hparam with rfl | rfl
    · cases t' <;> rfl
    · cases param <;> rfl
  | array hstores =>
    cases ht with
    | error => rfl
    | same hsame =>
      obtain ⟨size, rfl⟩ := hsame.of_array
      have hassign := assignable_of_stores hstores
      rw [argumentRuling, argumentFits, if_pos hassign]
      rfl

/-! ## Tagged operators -/

section Tagged

variable {op : Operator} {tag : OperandTag} {a b : Ty}

/-- A tagged operator begins with its tag. -/
theorem tagged_ne {s : String} (h : s.toList.head? ≠ some 'i' ∧ s.toList.head? ≠ some 'f') :
    (op.tagged tag).spelling ≠ s := by
  rintro rfl
  cases tag with
  | int => exact h.1 (by simp [Operator.tagged, OperandTag.text])
  | float => exact h.2 (by simp [Operator.tagged, OperandTag.text])

theorem ofSpelling?_tagged : OperatorClass.ofSpelling? (op.tagged tag).spelling = none := by
  rw [Option.eq_none_iff_forall_ne_some]
  intro c hc
  have hmem := ofSpelling?_iff.1 hc
  have hall : ∀ s ∈ c.spellings, s.toList.head? ≠ some 'i' ∧ s.toList.head? ≠ some 'f' := by
    cases c <;> decide
  exact tagged_ne (hall _ hmem) rfl

theorem unaryRuling_tagged : unaryRuling (op.tagged tag).spelling a =
    if a.isError then .silent else .reject (.incompatibleUnaryOperand (op.tagged tag).spelling) := by
  have hnot : (op.tagged tag).spelling ≠ "!" := tagged_ne (by decide)
  have hplus : (op.tagged tag).spelling ≠ "+" := tagged_ne (by decide)
  have hminus : (op.tagged tag).spelling ≠ "-" := tagged_ne (by decide)
  cases a <;> simp [unaryRuling, Ty.isError, hnot, hplus, hminus]

theorem binaryRuling_tagged {leftName rightName : String} (ha : a.isArray = false) (hb : b.isArray = false) :
    binaryRuling (op.tagged tag).spelling a b leftName rightName =
      if a.isError || b.isError then .silent else .reject (.incompatibleBinaryOperand (op.tagged tag).spelling) := by
  unfold binaryRuling
  rw [ha, hb, ofSpelling?_tagged]
  split_ifs <;> first
    | rfl
    | contradiction

end Tagged

/-! ## What is known of names -/

namespace Scopes

variable {α β : Type} {R : α → β → Prop}

/-- Bindings of one name. -/
def SameName (R : α → β → Prop) (x : String × α) (y : String × β) : Prop := x.1 = y.1 ∧ R x.2 y.2

/-- Scopes that bind the same names, to what is related. -/
structure Related (R : α → β → Prop) (s : Scopes α) (t : Scopes β) : Prop where
  innermost : List.Forall₂ (SameName R) s.innermost t.innermost
  outer : List.Forall₂ (List.Forall₂ (SameName R)) s.outer t.outer

theorem related_lookup {xs : List (String × α)} {ys : List (String × β)} (h : List.Forall₂ (SameName R) xs ys)
    (name : String) : Option.Rel R (xs.lookup name) (ys.lookup name) := by
  induction h with
  | nil => exact .none
  | @cons x y xs ys hxy _ ih =>
    obtain ⟨hname, hR⟩ := hxy
    rw [List.lookup_cons, List.lookup_cons, hname]
    split
    · exact .some hR
    · exact ih

namespace Related

variable {s : Scopes α} {t : Scopes β}

theorem retrieveOneLevel (h : Related R s t) (name : String) :
    Option.Rel R (s.retrieveOneLevel name) (t.retrieveOneLevel name) :=
  related_lookup h.innermost name

theorem retrieve (h : Related R s t) (name : String) : Option.Rel R (s.retrieve name) (t.retrieve name) := by
  have all {xs : List (List (String × α))} {ys : List (List (String × β))}
      (h : List.Forall₂ (List.Forall₂ (SameName R)) xs ys) :
      Option.Rel R (xs.findSome? (·.lookup name)) (ys.findSome? (·.lookup name)) := by
    induction h with
    | nil => exact .none
    | @cons scope scope' _ _ hscope _ ih =>
      rw [List.findSome?_cons, List.findSome?_cons]
      have hrel := related_lookup hscope name
      generalize scope.lookup name = x at hrel ⊢
      generalize scope'.lookup name = y at hrel ⊢
      cases hrel with
      | none => exact ih
      | some hR => exact .some hR
  exact all (.cons h.innermost h.outer)

theorem retrieve_some (h : Related R s t) {name : String} {a : α} (ha : s.retrieve name = some a) :
    ∃ b, t.retrieve name = some b ∧ R a b := by
  have hrel := h.retrieve name
  rw [ha] at hrel
  generalize t.retrieve name = o at hrel
  cases hrel with
  | some hR => exact ⟨_, rfl, hR⟩

theorem insert (h : Related R s t) (name : String) {a : α} {b : β} (hR : R a b) :
    Related R (s.insert name a) (t.insert name b) :=
  ⟨.cons ⟨rfl, hR⟩ h.innermost, h.outer⟩

theorem openScope (h : Related R s t) : Related R s.openScope t.openScope := ⟨.nil, .cons h.innermost h.outer⟩

end Related

end Scopes

/-- What is known of a name, for one more check: the size of an array may have been counted. -/
inductive Signature.Recalled : Signature → Signature → Prop
  | var {t t' : Ty} : t.SameButSize t' → Recalled (.var t) (.var t')
  | func {ret : Ty} {params : List Ty} : Recalled (.func ret params) (.func ret params)

/-- A binding for one more check: predeclared functions are declared anew. -/
structure Binding.Recalled (copies : List (Prototype × Prototype)) (b b' : Binding) : Prop where
  decl : SameDecl copies b.decl b'.decl
  signature : b.signature.Recalled b'.signature

/-- What is known in one more check is what was known in the first. -/
abbrev Env.Recalled (copies : List (Prototype × Prototype)) (env env' : Env) : Prop :=
  Scopes.Related (Binding.Recalled copies) env env'

theorem Signature.Recalled.element? {s s' : Signature} (h : s.Recalled s') : s'.element? = s.element? := by
  cases h with
  | var h => cases h <;> rfl
  | func => rfl

namespace Typing

variable {env env' : Env} {whole : Bool} {info : ExprInfo} {t : Ty}

/-! ## One form after another -/

/-- One more check of a checked expression: what it makes of it, without new expressions, and what it reports. -/
structure Repeats (copies : List (Prototype × Prototype)) (env : Env) (whole : Bool) (e e' : Expr)
    (errors : List Error) : Prop where
  rechecked : e.Rechecked copies e'
  ends : ∀ m, (checkExpr env whole e).Ends m e' m errors
  reported : ∀ parent, Reported (e.entries parent) errors

/-- What is reported under an expression that is no operator is all. -/
theorem reported_expr {e : Expr} {errors : List Error} {parent : NodeId} (hop : e.kind.isOperator = false)
    (h : Reported (e.children.flatMap (Expr.entries (.expr e.id))) errors) : Reported (e.entries parent) errors := by
  rw [Expr.entries_eq]
  refine h.behind fun id n hn => ?_
  cases hn
  exact hop

/-- An operator is reported unless something is under it. -/
theorem reported_operator {e : Expr} {errors own : List Error} {parent : NodeId}
    (h : Reported (e.children.flatMap (Expr.entries (.expr e.id))) errors)
    (hown : ∀ x ∈ own, (e.node parent).Blames x) (hsome : errors ++ own ≠ []) :
    Reported (e.entries parent) (errors ++ own) := by
  rw [Expr.entries_eq]
  constructor
  · intro x hx
    rcases List.mem_append.1 hx with hx | hx
    · obtain ⟨id, n, hn, hblames⟩ := h.blamed x hx
      exact ⟨id, n, List.mem_append_left _ hn, hblames⟩
    · exact ⟨e.id, e.node parent, List.mem_append_right _ (List.mem_singleton.2 rfl), hown x hx⟩
  · exact fun _ _ _ _ => hsome

namespace Repeats

variable {e e' : Expr} {errors : List Error}

/-- An operator as an operand is reported, or one under it. -/
theorem errors_ne_nil (h : Repeats copies env whole e e' errors) (hne : e.type ≠ .error)
    (herror : e'.type.isError = true) : errors ≠ [] := by
  have hop : e.kind.isOperator = true := by
    refine h.rechecked.type.2 hne ?_
    generalize e'.type = t at herror
    cases t <;> first
      | rfl
      | cases herror
  have hroot : Entry.expr e.id (e.node .program) ∈ e.entries .program := by
    rw [Expr.entries_eq]
    exact List.mem_append_right _ (List.mem_singleton.2 rfl)
  exact (h.reported .program).some _ _ hroot hop

theorem literal {value : Literal} : Repeats copies env whole (.literal (info.typed (literalType value)) value)
    (.literal (info.typed (literalType value)) value) [] where
  rechecked := .literal rfl
  ends m := by
    rw [checkExpr, ends_pure]
    exact ⟨rfl, rfl, rfl⟩
  reported parent := reported_expr rfl .nil

theorem var {i : Ident} {b : Binding} {d : DeclId} (hb : env.retrieve i.spelling = some b) (hi : i.decl = some d)
    (hd : SameDecl copies d b.decl) {t' : Ty} (hmeans : Means whole b.signature t') (hsame : t.SameButSize t') :
    Repeats copies env whole (.var (info.typed t) i) (.var (info.typed t') (i.bindTo b.decl)) [] where
  rechecked := .var rfl hsame (.intro hi hd)
  ends m := by
    have hrun : (checkVar env whole (info.typed t) i).Runs m (.var (info.typed t') (i.bindTo b.decl)) m :=
      runs_checkVar.2 ⟨b, t', hb, hmeans, rfl, rfl⟩
    rw [checkExpr]
    exact hrun
  reported parent := reported_expr rfl .nil

theorem arrayAccess {i : Ident} {b : Binding} {d : DeclId} {index index' : Expr}
    (hb : env.retrieve i.spelling = some b) (hi : i.decl = some d) (hd : SameDecl copies d b.decl)
    (helement : b.signature.element? = some t) (hindex : Repeats copies env false index index' errors)
    (hint : index.type = .int) :
    Repeats copies env whole (.arrayAccess (info.typed t) i index)
      (.arrayAccess (info.typed t) (i.bindTo b.decl) index') errors where
  rechecked := .arrayAccess rfl (.intro hi hd) hindex.rechecked
  ends m := by
    have hfault : subscriptFault? index'.type = none := by
      have htype := hindex.rechecked.type.1
      rw [hint] at htype
      rcases htype.eq_or_error rfl with h | h <;> rw [h] <;> rfl
    have hrun : (checkAccess env (info.typed t) i index').Runs m
        (.arrayAccess (info.typed t) (i.bindTo b.decl) index') m :=
      runs_checkAccess.2 ⟨b, t, hb, helement, hfault, rfl, rfl⟩
    rw [checkExpr]
    exact (hindex.ends m).bind_quiet hrun
  reported parent := reported_expr rfl (by simpa [Expr.children] using hindex.reported _)

theorem intToFloat (h : Repeats copies env false e e' errors) :
    Repeats copies env whole (.intToFloat (info.typed .float) e) (.intToFloat (info.typed .float) e') errors where
  rechecked := .intToFloat rfl h.rechecked
  ends m := by
    rw [checkExpr]
    exact (h.ends m).then_pure
  reported parent := reported_expr rfl (by simpa [Expr.children] using h.reported _)

theorem unary {op : Operator} {tag : OperandTag} (h : Repeats copies env false e e' errors) (hne : e.type ≠ .error) :
    ∃ own, Repeats copies env whole (.unary (info.typed t) (op.tagged tag) e)
      (.unary (info.typed .error) (op.tagged tag) e') (errors ++ own) := by
  have hbelow (id : ExprId) : Reported ([e].flatMap (Expr.entries (.expr id))) errors := by
    simpa using h.reported (.expr id)
  have hruling := @unaryRuling_tagged op tag e'.type
  by_cases herror : e'.type.isError = true
  · -- the operand was reported
    rw [if_pos herror] at hruling
    refine ⟨[], .unary rfl h.rechecked, fun m => ?_, fun parent => ?_⟩
    · rw [checkExpr]
      refine (h.ends m).bind ?_
      rw [finishUnary, hruling]
      rfl
    · refine reported_operator (hbelow _) (by simp) ?_
      rw [List.append_nil]
      exact h.errors_ne_nil hne herror
  · rw [if_neg herror] at hruling
    refine ⟨[⟨.incompatibleUnaryOperand (op.tagged tag).spelling, info.span⟩], .unary rfl h.rechecked, fun m => ?_,
      fun parent => ?_⟩
    · rw [checkExpr]
      refine (h.ends m).bind ?_
      rw [finishUnary, hruling]
      rfl
    · refine reported_operator (hbelow _) (fun x hx => ?_) (by simp)
      rw [List.mem_singleton] at hx
      subst hx
      exact .unary rfl

theorem binary {op : Operator} {tag : OperandTag} {left left' right right' : Expr} {errorsL errorsR : List Error}
    (hl : Repeats copies env false left left' errorsL) (hr : Repeats copies env false right right' errorsR)
    (hnl : left.type ≠ .error ∧ left.type.isArray = false) (hnr : right.type ≠ .error ∧ right.type.isArray = false) :
    ∃ own, Repeats copies env whole (.binary (info.typed t) (op.tagged tag) left right)
      (.binary (info.typed .error) (op.tagged tag) left' right') (errorsL ++ errorsR ++ own) := by
  have hbelow (id : ExprId) : Reported ([left, right].flatMap (Expr.entries (.expr id))) (errorsL ++ errorsR) := by
    simpa using (hl.reported (.expr id)).append (hr.reported (.expr id))
  have hruling := @binaryRuling_tagged op tag _ _ left'.name right'.name (hl.rechecked.type.1.isArray hnl.2)
    (hr.rechecked.type.1.isArray hnr.2)
  by_cases herror : (left'.type.isError || right'.type.isError) = true
  · -- one of the operands was reported
    rw [if_pos herror] at hruling
    refine ⟨[], .binary rfl hl.rechecked hr.rechecked, fun m => ?_, fun parent => ?_⟩
    · rw [checkExpr, List.append_assoc]
      refine (hl.ends m).bind ((hr.ends m).bind ?_)
      rw [finishBinary, hruling]
      rfl
    · refine reported_operator (hbelow _) (by simp) ?_
      rw [List.append_nil]
      intro hnil
      obtain ⟨hnilL, hnilR⟩ := List.append_eq_nil_iff.1 hnil
      rcases Bool.or_eq_true_iff.1 herror with herror | herror
      · exact hl.errors_ne_nil hnl.1 herror hnilL
      · exact hr.errors_ne_nil hnr.1 herror hnilR
  · rw [if_neg herror] at hruling
    refine ⟨[⟨.incompatibleBinaryOperand (op.tagged tag).spelling, info.span⟩],
      .binary rfl hl.rechecked hr.rechecked, fun m => ?_, fun parent => ?_⟩
    · rw [checkExpr, List.append_assoc]
      refine (hl.ends m).bind ((hr.ends m).bind ?_)
      rw [finishBinary, hruling]
      rfl
    · refine reported_operator (hbelow _) (fun x hx => ?_) (by simp)
      rw [List.mem_singleton] at hx
      subst hx
      exact .binary rfl

theorem assign {target target' value value' : Expr} {errorsT errorsV : List Error}
    (ht : Repeats copies env false target target' errorsT) (hv : Repeats copies env false value value' errorsV)
    (hl : target.isLvalue = true) (htype : target.type = t) (hvalue : value.type = t) (hscalar : t.isArray = false) :
    Repeats copies env whole (.assign (info.typed t) target value) (.assign (info.typed t) target' value')
      (errorsT ++ errorsV) where
  rechecked := .assign rfl ht.rechecked hv.rechecked
  ends m := by
    have htarget : target'.type = t := by
      obtain ⟨hrechecked, hop⟩ := ht.rechecked.type
      rw [htype] at hrechecked hop
      rcases hrechecked.eq_or_error hscalar with h | h
      · exact h
      · -- a target is no operator
        by_contra hne
        have hoperator := hop (fun herror => hne (h.trans herror.symm)) h
        cases target <;> cases hl <;> cases hoperator
    have hagain : t.Rechecked value'.type := by
      rw [← hvalue]
      exact hv.rechecked.type.1
    have hruling : assignRuling target'.type value'.type value'.name = .accept false := by
      rw [assignRuling, htarget, hscalar, hagain.isArray hscalar]
      exact storeRuling_again hagain hscalar
    rw [checkExpr, if_pos hl]
    refine (ht.ends m).bind ((hv.ends m).bind_quiet ?_)
    rw [finishAssign, hruling, htarget]
    rfl
  reported parent := by
    refine reported_expr rfl ?_
    simpa [Expr.children] using (ht.reported _).append (hv.reported _)

/-- A conversion is checked with what it converts. -/
theorem widened {needed : Bool} {n n' : Nat} {checked : Expr} (h : Repeats copies env false e e' errors)
    (hw : Widened n e needed checked n') : ∃ checked', Repeats copies env false checked checked' errors := by
  cases hw with
  | keep => exact ⟨e', h⟩
  | widen =>
    have hconverted := @intToFloat copies env false ⟨⟨n⟩, e.span, some .float⟩ e e' errors h
    exact ⟨_, hconverted⟩

end Repeats

/-- The type of an expression behind its conversion, if there is one. -/
theorem Widened.type {needed : Bool} {n n' : Nat} {e e' : Expr} (h : Widened n e needed e' n')
    (he : e.info.ty = some e.type) : e'.type = e.type.widened needed := by
  rw [Expr.type, h.typed he, Option.getD_some]

/-! ## Lists of expressions -/

/-- One more check of checked expressions that stand in a list. -/
structure RepeatsAll (copies : List (Prototype × Prototype)) (check : List Expr → Check Nat (List Expr))
    (es es' : List Expr) (errors : List Error) : Prop where
  rechecked : List.Forall₂ (Expr.Rechecked copies) es es'
  ends : ∀ m, (check es).Ends m es' m errors
  reported : ∀ parent, Reported (es.flatMap (Expr.entries parent)) errors

theorem RepeatsAll.nil {check : List Expr → Check Nat (List Expr)} (h : check [] = pure []) :
    RepeatsAll copies check [] [] [] where
  rechecked := .nil
  ends m := by
    rw [h, ends_pure]
    exact ⟨rfl, rfl, rfl⟩
  reported _ := .nil

/-- An expression in a list is accepted again where it stands. -/
theorem RepeatsAll.cons {check rest : List Expr → Check Nat (List Expr)} (ruling : Ty → Ruling Bool) {e e' : Expr}
    {es es' : List Expr} {errors errors' : List Error}
    (hcheck : check (e :: es) = do
      let e ← checkExpr env false e
      let e ← settle (ruling e.type) e.span e
      let es ← rest es
      return e :: es)
    (h : Repeats copies env false e e' errors) (hruling : ruling e'.type = .accept false)
    (hes : RepeatsAll copies rest es es' errors') :
    RepeatsAll copies check (e :: es) (e' :: es') (errors ++ errors') where
  rechecked := .cons h.rechecked hes.rechecked
  ends m := by
    have hsettled : (settle (ruling e'.type) e'.span e').Ends m e' m [] := by
      rw [hruling]
      rfl
    rw [hcheck]
    exact (h.ends m).bind (hsettled.quiet_bind (hes.ends m).then_pure)
  reported parent := (h.reported parent).append (hes.reported parent)

/-! ## All forms -/

/-- An expression whose check runs is checked once more. -/
def RepeatsAs (copies : List (Prototype × Prototype)) (env env' : Env) (e : Expr) : Prop :=
  ∀ ⦃whole n e' n'⦄, (checkExpr env whole e).Runs n e' n' → ∃ e'' errors, Repeats copies env' whole e' e'' errors

theorem repeats_checkArgs {params : List Ty} {args args' : List Expr} {n n' : Nat} (hΓ : env.scope.Proper)
    (hparams : ∀ p ∈ params, p.Proper) (hplain : ∀ e ∈ args, e.Plain) (hargs : ∀ e ∈ args, RepeatsAs copies env env' e)
    (h : (checkArgs env params args).Runs n args' n') :
    ∃ args'' errors, RepeatsAll copies (checkArgs env' params) args' args'' errors ∧ args'.length = args.length := by
  induction args generalizing params args' n with
  | nil =>
    rw [checkArgs, runs_pure] at h
    obtain ⟨rfl, -⟩ := h
    exact ⟨[], [], .nil (by rw [checkArgs]), rfl⟩
  | cons arg args ih =>
    obtain ⟨param, rest, checked, n₁, arg', n₂, args', rfl, hrun, hfits, hw, hrest, rfl⟩ := runs_checkArgs_cons.1 h
    obtain ⟨again, errors, hagain⟩ := hargs arg List.mem_cons_self hrun
    obtain ⟨arg'', hconverted⟩ := hagain.widened hw
    obtain ⟨args'', errors', hall, hlength⟩ := ih (fun p hp => hparams p (List.mem_cons_of_mem _ hp))
      (fun e he => hplain e (List.mem_cons_of_mem _ he)) (fun e he => hargs e (List.mem_cons_of_mem _ he)) hrest
    have hproper := ((finds hΓ (hplain arg List.mem_cons_self)).sound hrun).proper hΓ
    have hpassed := passedAs_of ((argumentFits_iff (hparams param List.mem_cons_self) hproper).1 hfits)
    rw [← hw.type (root_checkExpr hrun).typed] at hpassed
    have hruling := argumentRuling_again hpassed hconverted.rechecked.type.1
    refine ⟨arg'' :: args'', errors ++ errors',
      .cons (argumentRuling param) (by rw [checkArgs]) hconverted hruling hall, ?_⟩
    rw [List.length_cons, List.length_cons, hlength]

theorem repeats_call {args : List Expr} {ident : Ident} (hΓ : env.scope.Proper)
    (hrecalled : Env.Recalled copies env env') (hplain : ∀ e ∈ args, e.Plain)
    (hargs : ∀ e ∈ args, RepeatsAs copies env env' e) : RepeatsAs copies env env' (.call info ident args) := by
  intro whole n e' n' h
  obtain ⟨hmain, d, ret, params, args', hd, hrun, hlength, rfl⟩ := runs_call.1 h
  have hparams : ∀ p ∈ params, p.Proper := (hΓ _ _ (Env.retrieve_scope.2 ⟨d, hd⟩)).2
  obtain ⟨args'', errors, hall, hlength'⟩ := repeats_checkArgs hΓ hparams hplain hargs hrun
  obtain ⟨⟨d', signature'⟩, hd', hb⟩ := hrecalled.retrieve_some hd
  obtain rfl : signature' = .func ret params := by
    have hsignature := hb.signature
    cases hsignature
    rfl
  refine ⟨.call (info.typed ret) ((ident.bindTo d).bindTo d') args'', errors,
    .call rfl (.intro rfl hb.decl) hall.rechecked, fun m => ?_, fun parent => reported_expr rfl (hall.reported _)⟩
  have hname : (ident.bindTo d).spelling ≠ "main" := hmain
  have hretrieve : env'.retrieve (ident.bindTo d).spelling = some ⟨d', .func ret params⟩ := hd'
  have henough : ¬ args'.length < params.length := by omega
  rw [checkExpr, if_neg hname, hretrieve]
  simp only [if_neg henough]
  exact (hall.ends m).then_pure

theorem repeats_var {ident : Ident} (hrecalled : Env.Recalled copies env env') :
    RepeatsAs copies env env' (.var info ident) := by
  intro whole n e' n' h
  rw [checkExpr, runs_checkVar] at h
  obtain ⟨b, t, hb, hmeans, rfl, -⟩ := h
  obtain ⟨b', hb', hrecalled⟩ := hrecalled.retrieve_some hb
  obtain ⟨t', hmeans', hsame⟩ : ∃ t', Means whole b'.signature t' ∧ t.SameButSize t' := by
    have hsignature := hrecalled.signature
    generalize b.signature = s at hmeans hsignature
    generalize b'.signature = s' at hsignature
    cases hsignature with
    | @var s s' hsame =>
      obtain rfl : t = s := hmeans
      exact ⟨s', rfl, hsame⟩
    | func => exact ⟨t, hmeans, .same⟩
  have hname : env'.retrieve (ident.bindTo b.decl).spelling = some b' := hb'
  exact ⟨_, [], .var hname rfl hrecalled.decl hmeans' hsame⟩

theorem repeats_arrayAccess {index : Expr} {ident : Ident} (hΓ : env.scope.Proper)
    (hrecalled : Env.Recalled copies env env') (hplain : index.Plain) (hindex : RepeatsAs copies env env' index) :
    RepeatsAs copies env env' (.arrayAccess info ident index) := by
  intro whole n e' n' h
  simp only [checkExpr, runs_bind, runs_checkAccess] at h
  obtain ⟨index', n₁, hrun, b, element, hb, helement, hfault, rfl, -⟩ := h
  obtain ⟨index'', errors, hagain⟩ := hindex hrun
  obtain ⟨b', hb', hrecalled⟩ := hrecalled.retrieve_some hb
  have hproper := ((finds hΓ hplain).sound hrun).proper hΓ
  have hint := (subscriptFault?_iff hproper).1 hfault
  rw [← hrecalled.signature.element?] at helement
  have hname : env'.retrieve (ident.bindTo b.decl).spelling = some b' := hb'
  exact ⟨_, errors, .arrayAccess hname rfl hrecalled.decl helement hagain hint⟩

theorem repeats_unary {op : Operator} {operand : Expr} (hΓ : env.scope.Proper) (hplain : operand.Plain)
    (ho : RepeatsAs copies env env' operand) : RepeatsAs copies env env' (.unary info op operand) := by
  intro whole n e' n' h
  simp only [checkExpr, runs_bind] at h
  obtain ⟨operand', n₁, hrun, hfinish⟩ := h
  have hproper := ((finds hΓ hplain).sound hrun).proper hΓ
  obtain ⟨t, -, rfl, -⟩ := (runs_finishUnary hproper).1 hfinish
  obtain ⟨operand'', errors, hagain⟩ := ho hrun
  obtain ⟨own, hunary⟩ := hagain.unary hproper.ne_error
  exact ⟨_, _, hunary⟩

/-- The operands of a binary operator are no arrays, also behind the conversions, and nothing went wrong in them. -/
theorem operand_converted {op : String} {a b t : Ty} (h : BinaryOp op a b t) :
    (a.widened (Unified.of a b).widenLeft ≠ .error ∧ (a.widened (Unified.of a b).widenLeft).isArray = false) ∧
      b.widened (Unified.of a b).widenRight ≠ .error ∧ (b.widened (Unified.of a b).widenRight).isArray = false := by
  obtain ⟨s, htagged, hleft, hright⟩ := taggedBinary_of h
  have hs : s ≠ .error ∧ s.isArray = false := by
    generalize (Unified.of a b).tag = tag at htagged
    cases htagged <;> first
      | exact ⟨by simp, rfl⟩
      | cases tag <;> exact ⟨by simp [OperandTag.type], rfl⟩
  rw [hleft, hright]
  exact ⟨hs, hs⟩

theorem repeats_binary {op : Operator} {left right : Expr} (hΓ : env.scope.Proper) (hpl : left.Plain)
    (hpr : right.Plain) (hl : RepeatsAs copies env env' left) (hr : RepeatsAs copies env env' right) :
    RepeatsAs copies env env' (.binary info op left right) := by
  intro whole n e' n' h
  simp only [checkExpr, runs_bind] at h
  obtain ⟨left', n₁, hrunl, right', n₂, hrunr, hfinish⟩ := h
  have hproperl := ((finds hΓ hpl).sound hrunl).proper hΓ
  have hproperr := ((finds hΓ hpr).sound hrunr).proper hΓ
  obtain ⟨t, _, _, _, hop, hwl, hwr, rfl⟩ := (runs_finishBinary hproperl hproperr).1 hfinish
  obtain ⟨_, errorsL, hagainl⟩ := hl hrunl
  obtain ⟨_, errorsR, hagainr⟩ := hr hrunr
  obtain ⟨_, hconvertedl⟩ := hagainl.widened hwl
  obtain ⟨_, hconvertedr⟩ := hagainr.widened hwr
  obtain ⟨hnl, hnr⟩ := operand_converted hop
  rw [← hwl.type (root_checkExpr hrunl).typed] at hnl
  rw [← hwr.type (root_checkExpr hrunr).typed] at hnr
  obtain ⟨own, hbinary⟩ := hconvertedl.binary hconvertedr hnl hnr
  exact ⟨_, _, hbinary⟩

theorem repeats_assign {target value : Expr} (hΓ : env.scope.Proper) (hpt : target.Plain) (hpv : value.Plain)
    (ht : RepeatsAs copies env env' target) (hv : RepeatsAs copies env env' value) :
    RepeatsAs copies env env' (.assign info target value) := by
  intro whole n e' n' h
  obtain ⟨hl, target', n₁, value', n₂, hrunt, hrunv, hfinish⟩ := runs_assign.1 h
  have hpropert := ((finds hΓ hpt).sound hrunt).proper hΓ
  have hproperv := ((finds hΓ hpv).sound hrunv).proper hΓ
  obtain ⟨_, hstores, hw, rfl⟩ := (runs_finishAssign hpropert hproperv).1 hfinish
  obtain ⟨_, errorsT, hagaint⟩ := ht hrunt
  obtain ⟨_, errorsV, hagainv⟩ := hv hrunv
  obtain ⟨_, hconverted⟩ := hagainv.widened hw
  have htype := hw.type (root_checkExpr hrunv).typed
  rw [widened_of_stores hstores] at htype
  have hl' := (root_checkExpr hrunt).isLvalue.trans hl
  exact ⟨_, _, hagaint.assign hconverted hl' rfl htype (isArray_of_stores hstores)⟩

/-- An expression that was checked without a report is checked once more. -/
theorem repeats_checkExpr {e : Expr} (hΓ : env.scope.Proper) (hrecalled : Env.Recalled copies env env')
    (he : e.Plain) : RepeatsAs copies env env' e := by
  induction he with
  | binary hpl hpr hl hr => exact repeats_binary hΓ hpl hpr hl hr
  | unary hpo ho => exact repeats_unary hΓ hpo ho
  | assign hpt hpv ht hv => exact repeats_assign hΓ hpt hpv ht hv
  | var => exact repeats_var hrecalled
  | arrayAccess hplain hindex => exact repeats_arrayAccess hΓ hrecalled hplain hindex
  | call hplain hargs => exact repeats_call hΓ hrecalled hplain hargs
  | @literal info value =>
    intro whole n e' n' h
    rw [checkExpr, runs_pure] at h
    obtain ⟨rfl, -⟩ := h
    exact ⟨_, [], .literal⟩

end Typing

end VCLang
