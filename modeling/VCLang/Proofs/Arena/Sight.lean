/-
Lexical scoping, read off the links of a flat form. Which declarations are in sight at a node depends on what it
is part of and on the parts of that which stand before it; the check and its scopes have no part in this.
-/
import Mathlib.Tactic.Common
import VCLang.Diagnostic.Basic
import VCLang.Proofs.Arena.Links
namespace VCLang

/-- The number of a declaration, for a node that is one. -/
def NodeId.decl? : NodeId → Option DeclId
  | decl id => some id
  | _ => none

namespace Arena

variable {a : Arena} {library : List DeclId} {scopes scopes' : List (List DeclId)} {q x : NodeId}

/-! ## Scopes -/

/-- Whether the parts of a node are in a scope of their own: those of a function, which has one scope for its
parameters and the variables of its body, and those of a block that is not the body of a function. -/
def opensScope (a : Arena) : NodeId → Bool
  | .program => false
  | .decl id => (a.decl? id).any (·.kind.isFunction)
  | .stmt id => (a.stmt? id).any fun n => match n.kind, n.parent with
    | .compound _ _, some (.decl _) => false
    | .compound _ _, _ => true
    | _, _ => false
  | .expr _ => false

/-- The scopes for the parts of a node, from the innermost to the global one. -/
def entering (a : Arena) (q : NodeId) (scopes : List (List DeclId)) : List (List DeclId) :=
  if a.opensScope q then [] :: scopes else scopes

/-- Adds declarations to the innermost scope, which lists them as they stand in the program. -/
def declaring (ds : List DeclId) : List (List DeclId) → List (List DeclId)
  | [] => [ds]
  | scope :: scopes => (scope ++ ds) :: scopes

/-- The parts of a node up to one of them, itself included. -/
def partsUpTo (a : Arena) (q x : NodeId) : List NodeId := (a.childrenOf q).takeWhile (· ≠ x) ++ [x]

/-- The scopes with the declarations that stand at or before a node: the global scope has the library functions
first, and a declaration is in sight in its own parts. -/
inductive InSight (a : Arena) (library : List DeclId) : NodeId → List (List DeclId) → Prop
  | program : InSight a library .program [library]
  | part {x q : NodeId} {scopes : List (List DeclId)} : a.parentOf x = some q → InSight a library q scopes →
    InSight a library x (declaring ((a.partsUpTo q x).filterMap NodeId.decl?) (a.entering q scopes))

/-- What is in sight at a node is determined. -/
theorem InSight.unique (h : a.InSight library x scopes) (h' : a.InSight library x scopes') : scopes = scopes' := by
  induction h generalizing scopes' with
  | program =>
    cases h' with
    | program => rfl
    | part hp _ => cases hp
  | part hp _ ih =>
    cases h' with
    | program => cases hp
    | part hp' hq =>
      cases hp.symm.trans hp'
      rw [ih hq]

theorem declaring_ne_nil (ds : List DeclId) (scopes : List (List DeclId)) : declaring ds scopes ≠ [] := by
  cases scopes <;> simp [declaring]

@[simp] theorem declaring_nil (h : scopes ≠ []) : declaring [] scopes = scopes := by
  cases scopes with
  | nil => exact absurd rfl h
  | cons scope scopes => rw [declaring, List.append_nil]

theorem declaring_append (ds es : List DeclId) (scopes : List (List DeclId)) :
    declaring (ds ++ es) scopes = declaring es (declaring ds scopes) := by
  cases scopes <;> simp [declaring]

theorem InSight.ne_nil (h : a.InSight library x scopes) : scopes ≠ [] := by
  cases h with
  | program => simp
  | part => exact declaring_ne_nil _ _

/-- The parts up to one that is not named before. -/
theorem partsUpTo_eq {before after : List NodeId} (hchildren : a.childrenOf q = before ++ x :: after)
    (hx : x ∉ before) : a.partsUpTo q x = before ++ [x] := by
  have hwhile : (before ++ x :: after).takeWhile (· ≠ x) = before := by
    rw [List.takeWhile_append_of_pos fun y hy => by simpa using ne_of_mem_of_not_mem hy hx]
    simp
  rw [partsUpTo, hchildren, hwhile]

/-- In the parts of an expression nothing is declared. -/
theorem InSight.expr_part {c e : ExprId} (h : a.InSight library (.expr e) scopes)
    (hparent : a.parentOf (.expr c) = some (.expr e)) : a.InSight library (.expr c) scopes := by
  have hnone : (a.partsUpTo (.expr e) (.expr c)).filterMap NodeId.decl? = [] := by
    rw [List.filterMap_eq_nil_iff]
    intro y hy
    rcases List.mem_append.1 hy with hy | hy
    · have hmem := (List.takeWhile_sublist _).subset hy
      obtain ⟨n, -, hmem⟩ := List.mem_flatMap.1 hmem
      obtain ⟨d, -, rfl⟩ := List.mem_map.1 hmem
      rfl
    · rw [List.mem_singleton.1 hy]
      rfl
  have hpart := InSight.part hparent h
  rw [hnone] at hpart
  change a.InSight library (.expr c) (declaring [] scopes) at hpart
  rwa [declaring_nil h.ne_nil] at hpart

/-! ## Names -/

/-- The name that a declaration declares. -/
def nameOf (a : Arena) (d : DeclId) : Option String := (a.decl? d).map (·.ident.spelling)

/-- The latest declaration of a name in a scope. -/
def latest (a : Arena) (name : String) (scope : List DeclId) : Option DeclId :=
  scope.reverse.find? fun d => a.nameOf d = some name

/-- The declaration that a name stands for: the latest one in the innermost scope that has one. -/
def resolve (a : Arena) (scopes : List (List DeclId)) (name : String) : Option DeclId :=
  scopes.findSome? (a.latest name)

/-- A declaration of a name that was declared before in the same scope. -/
def Redeclares (a : Arena) (library : List DeclId) (d : DeclId) : Prop :=
  ∃ before scopes name, a.InSight library (.decl d) ((before ++ [d]) :: scopes) ∧ a.nameOf d = some name ∧
    ∃ e ∈ before, a.nameOf e = some name

end Arena

/-! ## Errors -/

/-- Whether an expression is a call of `main`. -/
def ExprKind.callsMain : ExprKind → Bool
  | call ident _ => ident.spelling = "main"
  | _ => false

/-- The error for the name that an expression uses: `main` is called, or the name is bound to nothing. -/
def ExprNode.useError? (n : ExprNode) : Option Error :=
  match n.kind with
  | .var ident => if ident.decl.isNone then some ⟨.undeclared ident.spelling, n.span⟩ else none
  | .arrayAccess ident _ => if ident.decl.isNone then some ⟨.undeclared ident.spelling, n.span⟩ else none
  | .call ident _ =>
    if ident.spelling = "main" then some ⟨.mainCalled, n.span⟩
    else if ident.decl.isNone then some ⟨.undeclared ident.spelling, ident.span⟩
    else none
  | _ => none

/-- The error for a declaration of a name that is declared already. -/
def DeclNode.redeclaredError (n : DeclNode) : Error := ⟨.redeclared n.ident.spelling, n.ident.span⟩

namespace Arena

/-- The name that an expression uses is bound to the declaration that it stands for where the expression is; the
expression is wrong if there is none. A function `main` is never called. -/
def UseResolved (a : Arena) (library : List DeclId) (id : ExprId) (n : ExprNode) (ident : Ident) : Prop :=
  ∃ scopes, a.InSight library (.expr id) scopes ∧
    ident.decl = (if n.kind.callsMain then none else a.resolve scopes ident.spelling) ∧
    (ident.decl = none → n.ty = some .error)

end Arena

end VCLang
