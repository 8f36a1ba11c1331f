/-
Nested scopes that bind names. The innermost scope takes new names, the outermost one is never closed, and
the latest binding of a name in the innermost scope that has one is the one in force.
-/
namespace VCLang

/-- Open scopes, each with its bindings from the latest to the earliest: the innermost scope, and those
around it from the inside to the outside. -/
structure Scopes (α : Type) where
  innermost : List (String × α)
  outer : List (List (String × α))
  deriving DecidableEq, Repr

namespace Scopes

variable {α : Type}

/-- One scope, which binds nothing. -/
def empty : Scopes α := ⟨[], []⟩

/-- How many scopes are open. -/
def depth (s : Scopes α) : Nat := s.outer.length + 1

/-- Opens a scope inside the innermost one. -/
def openScope (s : Scopes α) : Scopes α := ⟨[], s.innermost :: s.outer⟩

/-- Closes the innermost scope, unless it is the only one. -/
def closeScope (s : Scopes α) : Scopes α :=
  match s.outer with
  | [] => s
  | scope :: outer => ⟨scope, outer⟩

/-- Binds a name in the innermost scope. -/
def insert (s : Scopes α) (name : String) (a : α) : Scopes α :=
  { s with innermost := (name, a) :: s.innermost }

/-- What a name is bound to in the innermost scope. -/
def retrieveOneLevel (s : Scopes α) (name : String) : Option α := s.innermost.lookup name

/-- What a name is bound to: in the innermost scope that has it, as it was bound last. -/
def retrieve (s : Scopes α) (name : String) : Option α :=
  (s.innermost :: s.outer).findSome? (·.lookup name)

/-! ## Laws -/

@[simp] theorem depth_openScope (s : Scopes α) : s.openScope.depth = s.depth + 1 := rfl

theorem depth_pos (s : Scopes α) : 1 ≤ s.depth := Nat.le_add_left 1 _

@[simp] theorem depth_insert (s : Scopes α) (name : String) (a : α) : (s.insert name a).depth = s.depth := rfl

@[simp] theorem closeScope_openScope (s : Scopes α) : s.openScope.closeScope = s := rfl

@[simp] theorem closeScope_insert_openScope (s : Scopes α) (name : String) (a : α) :
    (s.openScope.insert name a).closeScope = s := rfl

theorem retrieve_insert_self (s : Scopes α) (name : String) (a : α) :
    (s.insert name a).retrieve name = some a := by
  simp [retrieve, insert]

theorem retrieve_insert_ne (s : Scopes α) {name other : String} (a : α) (h : other ≠ name) :
    (s.insert name a).retrieve other = s.retrieve other := by
  simp [retrieve, insert, List.findSome?_cons, List.lookup_cons, beq_false_of_ne h]

@[simp] theorem retrieve_openScope (s : Scopes α) (name : String) :
    s.openScope.retrieve name = s.retrieve name := by
  simp [retrieve, openScope, List.findSome?_cons]

@[simp] theorem retrieveOneLevel_openScope (s : Scopes α) (name : String) :
    s.openScope.retrieveOneLevel name = none := rfl

end Scopes

end VCLang
