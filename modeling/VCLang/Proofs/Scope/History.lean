/-
A stack of scopes by its history. Which scopes are still open, and what was inserted last into which of them, is read
off the operations alone: a scope is open as long as what follows its opening closes no more scopes than it opens, and
an insertion goes to the scope that was opened last among those open then. The stack answers as the history says, and
a block of operations that closes what it opens leaves no trace.
-/
import Mathlib.Data.List.Forall2
import Mathlib.Data.List.Infix
import VCLang.Scope
namespace VCLang.Scopes

/-! ## Operations -/

/-- What can be done to a stack of scopes. -/
inductive Op (α : Type) where
  | openScope
  | closeScope
  | insert (name : String) (a : α)
  deriving DecidableEq, Repr

variable {α : Type}

/-- A stack after one operation. -/
def apply (s : Scopes α) : Op α → Scopes α
  | .openScope => s.openScope
  | .closeScope => s.closeScope
  | .insert name a => s.insert name a

/-- A stack after some operations. -/
def run (s : Scopes α) (ops : List (Op α)) : Scopes α := ops.foldl apply s

theorem run_append (s : Scopes α) (ops ops' : List (Op α)) : s.run (ops ++ ops') = (s.run ops).run ops' :=
  List.foldl_append

theorem run_snoc (s : Scopes α) (ops : List (Op α)) (op : Op α) : s.run (ops ++ [op]) = (s.run ops).apply op :=
  s.run_append ops [op]

/-! ## What a history says -/

/-- How many scopes some operations open. -/
def opens (ops : List (Op α)) : Nat := ops.countP fun | .openScope => true | _ => false

/-- How many scopes some operations close. -/
def closes (ops : List (Op α)) : Nat := ops.countP fun | .closeScope => true | _ => false

/-- No beginning of the operations closes more scopes than it opens. -/
def Nested (ops : List (Op α)) : Prop := ∀ front, front <+: ops → closes front ≤ opens front

instance (ops : List (Op α)) : Decidable (Nested ops) :=
  decidable_of_iff (∀ front ∈ ops.inits, closes front ≤ opens front) (by simp only [List.mem_inits, Nested])

/-- The operations close just the scopes that they open. -/
structure Balanced (ops : List (Op α)) : Prop where
  nested : Nested ops
  closed : closes ops = opens ops

/-- The scopes that are open after a history. The outermost one has the number 0, any other one the number of
operations up to its opening, that included. -/
inductive StillOpen (h : List (Op α)) : Nat → Prop
  | outermost : StillOpen h 0
  | opened {before since : List (Op α)} : h = before ++ .openScope :: since → Nested since →
    StillOpen h (before.length + 1)

/-- The innermost open scope is the one that was opened last. -/
def Innermost (h : List (Op α)) (k : Nat) : Prop := StillOpen h k ∧ ∀ j, StillOpen h j → j ≤ k

/-- The last insertion of a name into a scope. An insertion goes to the scope that is the innermost one then. -/
def LastInserted (h : List (Op α)) (k : Nat) (name : String) (a : α) : Prop :=
  ∃ before since, h = before ++ .insert name a :: since ∧ Innermost before k ∧
    ∀ mid b rest, since = mid ++ .insert name b :: rest → ¬ Innermost (before ++ .insert name a :: mid) k

/-- What a name stands for, looked up in some scopes: the last insertion into the innermost of those that hold it,
and nothing if none does. -/
inductive Found (h : List (Op α)) (scopes : Nat → Prop) (name : String) : Option α → Prop
  | some {k : Nat} {a : α} : scopes k → LastInserted h k name a →
    (∀ j b, scopes j → LastInserted h j name b → j ≤ k) → Found h scopes name (some a)
  | none : (∀ k a, scopes k → ¬ LastInserted h k name a) → Found h scopes name none

variable {h ops : List (Op α)} {op : Op α} {s : Scopes α} {k : Nat} {name : String} {a : α}

/-! ## One more operation -/

theorem Nested.nil : Nested ([] : List (Op α)) := fun front hfront => by rw [List.prefix_nil.1 hfront]; rfl

theorem nested_snoc : Nested (ops ++ [op]) ↔ Nested ops ∧ closes (ops ++ [op]) ≤ opens (ops ++ [op]) := by
  constructor
  · exact fun hn => ⟨fun front hfront => hn front (hfront.trans (List.prefix_append _ _)), hn _ (List.prefix_refl _)⟩
  · rintro ⟨hn, hall⟩ front hfront
    rcases List.prefix_concat_iff.1 hfront with rfl | hfront
    · exact hall
    · exact hn front hfront

theorem Nested.closes_le (hn : Nested ops) : closes ops ≤ opens ops := hn ops (List.prefix_refl _)

theorem opens_append (ops ops' : List (Op α)) : opens (ops ++ ops') = opens ops + opens ops' := List.countP_append

theorem closes_append (ops ops' : List (Op α)) : closes (ops ++ ops') = closes ops + closes ops' := List.countP_append

/-- An operation of a longer history is its last one, or stands in the history before that. -/
theorem snoc_eq_append_cons {op' : Op α} {before since : List (Op α)} : h ++ [op] = before ++ op' :: since ↔
    (h = before ∧ op = op' ∧ since = []) ∨ ∃ since', since = since' ++ [op] ∧ h = before ++ op' :: since' := by
  constructor
  · intro heq
    rcases List.eq_nil_or_concat' since with rfl | ⟨since', last, rfl⟩
    · obtain ⟨rfl, hop⟩ := List.append_inj' heq rfl
      exact .inl ⟨rfl, List.singleton_inj.1 hop, rfl⟩
    · rw [← List.cons_append, ← List.append_assoc] at heq
      obtain ⟨hh, hop⟩ := List.append_inj' heq rfl
      exact .inr ⟨since', by rw [List.singleton_inj.1 hop], hh⟩
  · rintro (⟨rfl, rfl, rfl⟩ | ⟨since', rfl, rfl⟩)
    · rfl
    · rw [List.append_assoc, List.cons_append]

theorem StillOpen.le_length (hk : StillOpen h k) : k ≤ h.length := by
  cases hk with
  | outermost => exact Nat.zero_le _
  | opened hh _ =>
    rw [hh, List.length_append, List.length_cons]
    omega

/-- The last insertion is the last operation, or an earlier one that the last operation does not replace. -/
theorem lastInserted_snoc : LastInserted (h ++ [op]) k name a ↔
    (op = .insert name a ∧ Innermost h k) ∨
      (LastInserted h k name a ∧ ∀ b, op = .insert name b → ¬ Innermost h k) := by
  constructor
  · rintro ⟨before, since, hh, hin, hlast⟩
    rcases snoc_eq_append_cons.1 hh with ⟨rfl, rfl, rfl⟩ | ⟨since', rfl, rfl⟩
    · exact .inl ⟨rfl, hin⟩
    · refine .inr ⟨⟨before, since', rfl, hin, fun mid b rest hmid => ?_⟩, fun b hb => ?_⟩
      · exact hlast mid b (rest ++ [op]) (snoc_eq_append_cons.2 (.inr ⟨rest, rfl, hmid⟩))
      · exact hlast since' b [] (by rw [hb])
  · rintro (⟨rfl, hin⟩ | ⟨⟨before, since, rfl, hin, hlast⟩, hop⟩)
    · exact ⟨h, [], rfl, hin, fun mid b rest hmid => by cases mid <;> cases hmid⟩
    · refine ⟨before, since ++ [op], by rw [List.append_assoc, List.cons_append], hin, fun mid b rest hmid => ?_⟩
      rcases snoc_eq_append_cons.1 hmid with ⟨rfl, rfl, rfl⟩ | ⟨rest', rfl, hsince⟩
      · exact hop b rfl
      · exact hlast mid b rest' hsince

/-! ## The stack and its history -/

/-- The open scopes of a history have the numbers `ks` from the inside to the outside. A scope that was opened has as
many others inside it as were opened and not closed since. -/
structure Numbered (h : List (Op α)) (ks : List Nat) : Prop where
  decreasing : ks.Pairwise (· > ·)
  outermost : 0 ∈ ks
  stillOpen : ∀ k ∈ ks, StillOpen h k
  place : ∀ before since, h = before ++ .openScope :: since → Nested since →
    ks[opens since - closes since]? = some (before.length + 1)

variable {ks : List Nat}

theorem Numbered.mem_iff (hks : Numbered h ks) : k ∈ ks ↔ StillOpen h k := by
  refine ⟨hks.stillOpen k, fun hk => ?_⟩
  cases hk with
  | outermost => exact hks.outermost
  | opened hh hn => exact List.mem_of_getElem? (hks.place _ _ hh hn)

/-- The innermost scope has the first number. -/
theorem Numbered.innermost_iff {j : Nat} {js : List Nat} (hks : Numbered h (j :: js)) : Innermost h k ↔ k = j := by
  have hle : ∀ i, StillOpen h i → i ≤ j := fun i hi => by
    rcases List.mem_cons.1 (hks.mem_iff.2 hi) with rfl | hi
    · exact Nat.le_refl i
    · exact Nat.le_of_lt (List.rel_of_pairwise_cons hks.decreasing hi)
  have hj : StillOpen h j := hks.mem_iff.1 List.mem_cons_self
  constructor
  · exact fun hk => Nat.le_antisymm (hle k hk.1) (hk.2 j hj)
  · rintro rfl
    exact ⟨hj, hle⟩

theorem numbered_nil : Numbered ([] : List (Op α)) [0] where
  decreasing := List.pairwise_singleton _ _
  outermost := List.mem_singleton_self 0
  stillOpen k hk := by
    rw [List.mem_singleton.1 hk]
    exact .outermost
  place before since hh := by cases before <;> cases hh

/-- After an insertion the same scopes are open. -/
theorem Numbered.insert (hks : Numbered h ks) (name : String) (a : α) : Numbered (h ++ [.insert name a]) ks where
  decreasing := hks.decreasing
  outermost := hks.outermost
  stillOpen k hk := by
    cases hks.stillOpen k hk with
    | outermost => exact .outermost
    | opened hh hn =>
      refine .opened (snoc_eq_append_cons.2 (.inr ⟨_, rfl, hh⟩)) (nested_snoc.2 ⟨hn, ?_⟩)
      simpa [opens, closes] using hn.closes_le
  place before since hh hn := by
    rcases snoc_eq_append_cons.1 hh with ⟨-, hop, -⟩ | ⟨since', rfl, hh'⟩
    · cases hop
    · simpa [opens, closes] using hks.place before since' hh' (nested_snoc.1 hn).1

/-- A new scope is opened inside all others. -/
theorem Numbered.openScope (hks : Numbered h ks) : Numbered (h ++ [.openScope]) ((h.length + 1) :: ks) where
  decreasing := List.pairwise_cons.2 ⟨fun k hk => Nat.lt_succ_of_le (hks.stillOpen k hk).le_length, hks.decreasing⟩
  outermost := List.mem_cons_of_mem _ hks.outermost
  stillOpen k hk := by
    rcases List.mem_cons.1 hk with rfl | hk
    · exact .opened rfl .nil
    · cases hks.stillOpen k hk with
      | outermost => exact .outermost
      | opened hh hn =>
        refine .opened (snoc_eq_append_cons.2 (.inr ⟨_, rfl, hh⟩)) (nested_snoc.2 ⟨hn, ?_⟩)
        simpa [opens, closes] using Nat.le_succ_of_le hn.closes_le
  place before since hh hn := by
    rcases snoc_eq_append_cons.1 hh with ⟨rfl, -, rfl⟩ | ⟨since', rfl, hh'⟩
    · rfl
    · have hn' := (nested_snoc.1 hn).1
      have hplace : opens (since' ++ [.openScope]) - closes (since' ++ [.openScope]) =
          opens since' - closes since' + 1 := by
        have hle := hn'.closes_le
        simp only [opens, closes, List.countP_append, List.countP_singleton] at hle ⊢
        simp only [if_true, if_false, Bool.false_eq_true]
        omega
      rw [hplace, List.getElem?_cons_succ]
      exact hks.place before since' hh' hn'

/-- The innermost scope is closed if it is not the outermost one. -/
theorem Numbered.closeScope {i j : Nat} {js : List Nat} (hks : Numbered h (i :: j :: js)) :
    Numbered (h ++ [.closeScope]) (j :: js) := by
  have hcount (since : List (Op α)) : opens (since ++ [.closeScope]) = opens since ∧
      closes (since ++ [.closeScope]) = closes since + 1 := by
    simp [opens, closes]
  constructor
  · exact hks.decreasing.of_cons
  · -- the outermost scope is around another one
    rcases List.mem_cons.1 hks.outermost with rfl | hmem
    · exact absurd (List.rel_of_pairwise_cons hks.decreasing List.mem_cons_self) (Nat.not_lt_zero j)
    · exact hmem
  · intro k hk
    have hlt : k < i := List.rel_of_pairwise_cons hks.decreasing hk
    cases hks.stillOpen k (List.mem_cons_of_mem _ hk) with
    | outermost => exact .outermost
    | @opened before since hh hn =>
      -- a scope that is not the innermost one has another scope inside it
      have hne : opens since - closes since ≠ 0 := fun hzero => by
        have hplace := hks.place before since hh hn
        rw [hzero] at hplace
        cases hplace
        exact Nat.lt_irrefl _ hlt
      refine .opened (snoc_eq_append_cons.2 (.inr ⟨_, rfl, hh⟩)) (nested_snoc.2 ⟨hn, ?_⟩)
      rw [(hcount since).1, (hcount since).2]
      omega
  · intro before since hh hn
    rcases snoc_eq_append_cons.1 hh with ⟨-, hop, -⟩ | ⟨since', rfl, hh'⟩
    · cases hop
    · obtain ⟨hn', hle⟩ := nested_snoc.1 hn
      have hplace := hks.place before since' hh' hn'
      rw [(hcount since').1, (hcount since').2] at hle ⊢
      rwa [show opens since' - closes since' = opens since' - (closes since' + 1) + 1 by omega,
        List.getElem?_cons_succ] at hplace

/-- The outermost scope is never closed. -/
theorem Numbered.closeScope_outermost {i : Nat} (hks : Numbered h [i]) : Numbered (h ++ [.closeScope]) [i] := by
  obtain rfl : 0 = i := List.mem_singleton.1 hks.outermost
  refine ⟨hks.decreasing, hks.outermost, fun k hk => ?_, fun before since hh hn => ?_⟩
  · rw [List.mem_singleton.1 hk]
    exact .outermost
  · rcases snoc_eq_append_cons.1 hh with ⟨-, hop, -⟩ | ⟨since', rfl, hh'⟩
    · cases hop
    · -- no other scope is open
      have hplace := List.mem_of_getElem? (hks.place before since' hh' (nested_snoc.1 hn).1)
      cases List.mem_singleton.1 hplace

/-- The scopes of a stack, from the inside to the outside. -/
def scopes (s : Scopes α) : List (List (String × α)) := s.innermost :: s.outer

/-- A scope binds each name as it was inserted last. -/
def Binds (h : List (Op α)) (k : Nat) (scope : List (String × α)) : Prop :=
  ∀ name a, scope.lookup name = some a ↔ LastInserted h k name a

/-- The scopes of a stack are those that a history has left open, with what was inserted into each. -/
structure Mirrors (h : List (Op α)) (ks : List Nat) (s : Scopes α) : Prop where
  numbered : Numbered h ks
  binds : List.Forall₂ (Binds h) ks s.scopes

/-- A scope binds the same after an operation that inserts nothing. -/
theorem Binds.snoc {scope : List (String × α)} (hb : Binds h k scope)
    (hop : ∀ name a, op = .insert name a → ¬ Innermost h k) : Binds (h ++ [op]) k scope := by
  intro name a
  rw [hb, lastInserted_snoc]
  constructor
  · exact fun hlast => .inr ⟨hlast, hop name⟩
  · rintro (⟨rfl, hin⟩ | ⟨hlast, -⟩)
    · exact absurd hin (hop name a rfl)
    · exact hlast

/-- The innermost scope binds what is inserted, in place of what the name was bound to. -/
theorem Binds.insert {scope : List (String × α)} (hb : Binds h k scope) (hin : Innermost h k) (name : String) (a : α) :
    Binds (h ++ [.insert name a]) k ((name, a) :: scope) := by
  intro other b
  rw [lastInserted_snoc, List.lookup_cons]
  by_cases hname : other = name
  · subst hname
    simp [hin]
  · rw [beq_false_of_ne hname]
    simp [hb other b, Ne.symm hname]

/-- A scope that is opened binds nothing. -/
theorem binds_opened (h : List (Op α)) : Binds (h ++ [.openScope]) (h.length + 1) [] := by
  intro name a
  rw [lastInserted_snoc]
  constructor
  · exact fun hnone => nomatch hnone
  · rintro (⟨hop, -⟩ | ⟨⟨before, since, rfl, hin, -⟩, -⟩)
    · cases hop
    · have hle := hin.1.le_length
      rw [List.length_append] at hle
      omega

/-- Each operation does to the stack what it does to the history. -/
theorem Mirrors.apply (hm : Mirrors h ks s) (op : Op α) : ∃ ks, Mirrors (h ++ [op]) ks (s.apply op) := by
  obtain ⟨hks, hbinds⟩ := hm
  cases op with
  | openScope =>
    refine ⟨_, hks.openScope, .cons (binds_opened h) ?_⟩
    exact hbinds.imp fun k scope hb => hb.snoc fun _ _ hop => nomatch hop
  | closeScope =>
    have hsame : List.Forall₂ (Binds (h ++ [.closeScope])) ks s.scopes :=
      hbinds.imp fun k scope hb => hb.snoc fun _ _ hop => nomatch hop
    obtain ⟨innermost, outer⟩ := s
    cases hsame with
    | @cons i _ js _ hi hjs =>
      cases hjs with
      | nil => exact ⟨[i], hks.closeScope_outermost, .cons hi .nil⟩
      | cons hj hjs => exact ⟨_, hks.closeScope, .cons hj hjs⟩
  | insert name a =>
    obtain ⟨innermost, outer⟩ := s
    cases hbinds with
    | @cons i _ js _ hi hjs =>
      refine ⟨i :: js, hks.insert name a, .cons (hi.insert (hks.innermost_iff.2 rfl) name a) ?_⟩
      have hout : ∀ j ∈ js, ¬ Innermost h j := fun j hj hin =>
        Nat.ne_of_lt (List.rel_of_pairwise_cons hks.decreasing hj) (hks.innermost_iff.1 hin)
      exact ((List.forall₂_and_left js outer).2 ⟨hout, hjs⟩).imp fun j scope hb => hb.2.snoc fun _ _ _ => hb.1

/-- The stack after a history mirrors it. -/
theorem exists_mirrors (h : List (Op α)) : ∃ ks, Mirrors h ks (empty.run h) := by
  induction h using List.reverseRecOn with
  | nil =>
    refine ⟨[0], numbered_nil, .cons (fun name a => ?_) .nil⟩
    constructor
    · exact fun hnone => nomatch hnone
    · rintro ⟨before, since, hh, -⟩
      cases before <;> cases hh
  | append_singleton h op ih =>
    obtain ⟨ks, hm⟩ := ih
    rw [run_snoc]
    exact hm.apply op

/-! ## Look-up -/

/-- A name stands for one thing at most. -/
theorem Found.unique {scopes : Nat → Prop} {r r' : Option α}
    (hone : ∀ k a b, scopes k → LastInserted h k name a → LastInserted h k name b → a = b)
    (hr : Found h scopes name r) (hr' : Found h scopes name r') : r = r' := by
  cases hr with
  | some hk ha hin =>
    cases hr' with
    | some hk' ha' hin' =>
      obtain rfl := Nat.le_antisymm (hin' _ _ hk ha) (hin _ _ hk' ha')
      rw [hone _ _ _ hk ha ha']
    | none hnone => exact absurd ha (hnone _ _ hk)
  | none hnone =>
    cases hr' with
    | some hk ha _ => exact absurd ha (hnone _ _ hk)
    | none _ => rfl

/-- Of scopes that lie in each other, the first that binds a name decides. -/
theorem found_findSome {ks : List Nat} {scopes : List (List (String × α))} (hdecreasing : ks.Pairwise (· > ·))
    (hb : List.Forall₂ (Binds h) ks scopes) (name : String) :
    Found h (· ∈ ks) name (scopes.findSome? (·.lookup name)) := by
  induction hb with
  | nil => exact .none fun k a hk => nomatch hk
  | @cons k scope ks scopes hscope _ ih =>
    rw [List.pairwise_cons] at hdecreasing
    rw [List.findSome?_cons]
    cases hlookup : scope.lookup name with
    | some a =>
      refine .some List.mem_cons_self ((hscope name a).1 hlookup) fun j b hj _ => ?_
      rcases List.mem_cons.1 hj with rfl | hj
      · exact Nat.le_refl j
      · exact Nat.le_of_lt (hdecreasing.1 j hj)
    | none =>
      have hnot (a : α) : ¬ LastInserted h k name a := fun ha => by
        rw [(hscope name a).2 ha] at hlookup
        cases hlookup
      have hrest := ih hdecreasing.2
      generalize scopes.findSome? (·.lookup name) = r at hrest ⊢
      cases hrest with
      | some hj hb hin =>
        refine .some (List.mem_cons_of_mem _ hj) hb fun i c hi hc => ?_
        rcases List.mem_cons.1 hi with rfl | hi
        · exact absurd hc (hnot c)
        · exact hin i c hi hc
      | none hnone =>
        refine .none fun j b hj => ?_
        rcases List.mem_cons.1 hj with rfl | hj
        · exact hnot b
        · exact hnone j b hj

/-- The last insertion of a name into an open scope is one. -/
theorem Mirrors.last_unique {b : α} (hm : Mirrors h ks s) (hk : StillOpen h k) (ha : LastInserted h k name a)
    (hb : LastInserted h k name b) : a = b := by
  obtain ⟨i, hi, rfl⟩ := List.getElem_of_mem (hm.numbered.mem_iff.2 hk)
  have hbinds := hm.binds.get hi (hm.binds.length_eq ▸ hi)
  exact Option.some.inj (((hbinds name a).2 ha).symm.trans ((hbinds name b).2 hb))

/-- A name is looked up in all scopes that are open. -/
theorem Mirrors.retrieve_eq_iff (hm : Mirrors h ks s) (name : String) (r : Option α) :
    s.retrieve name = r ↔ Found h (StillOpen h) name r := by
  have hopen : (· ∈ ks) = StillOpen h := funext fun k => propext hm.numbered.mem_iff
  have hfound := found_findSome hm.numbered.decreasing hm.binds name
  rw [hopen] at hfound
  constructor
  · rintro rfl
    exact hfound
  · exact hfound.unique fun k a b hk => hm.last_unique hk

/-- On one level a name is looked up in the innermost scope alone. -/
theorem Mirrors.retrieveOneLevel_eq_iff (hm : Mirrors h ks s) (name : String) (r : Option α) :
    s.retrieveOneLevel name = r ↔ Found h (Innermost h) name r := by
  obtain ⟨i, hi, hinnermost⟩ : ∃ i, Binds h i s.innermost ∧ (· ∈ [i]) = Innermost h := by
    obtain ⟨hks, hbinds⟩ := hm
    cases hbinds with
    | cons hi _ => exact ⟨_, hi, funext fun k => by rw [List.mem_singleton, hks.innermost_iff]⟩
  have hfound := found_findSome (List.pairwise_singleton _ i) (.cons hi .nil) name
  rw [hinnermost] at hfound
  have hone : [s.innermost].findSome? (·.lookup name) = s.retrieveOneLevel name := by simp [retrieveOneLevel]
  rw [hone] at hfound
  constructor
  · rintro rfl
    exact hfound
  · exact hfound.unique fun k a b hk => hm.last_unique hk.1

/-! ## Blocks -/

/-- Operations that close no more scopes than they open leave the scopes around the innermost one as they are. -/
theorem Nested.run_outer (hn : Nested ops) (s : Scopes α) :
    ∃ innermost inside, s.run ops = ⟨innermost, inside ++ s.outer⟩ ∧ inside.length + closes ops = opens ops := by
  induction ops using List.reverseRecOn with
  | nil => exact ⟨s.innermost, [], rfl, rfl⟩
  | append_singleton ops op ih =>
    obtain ⟨hn, hle⟩ := nested_snoc.1 hn
    obtain ⟨innermost, inside, hrun, hlength⟩ := ih hn
    rw [run_snoc, hrun]
    rw [opens_append, closes_append] at hle ⊢
    cases op with
    | openScope =>
      refine ⟨[], innermost :: inside, rfl, ?_⟩
      change inside.length + 1 + (closes ops + 0) = opens ops + 1
      omega
    | closeScope =>
      change closes ops + 1 ≤ opens ops + 0 at hle
      cases inside with
      | nil =>
        rw [List.length_nil] at hlength
        omega
      | cons next inside =>
        refine ⟨next, inside, rfl, ?_⟩
        change inside.length + 1 + closes ops = opens ops at hlength
        change inside.length + (closes ops + 1) = opens ops + 0
        omega
    | insert name a => exact ⟨(name, a) :: innermost, inside, rfl, hlength⟩

/-- A block that closes just what it opens leaves the stack as it was. -/
theorem Balanced.run_block (hb : Balanced ops) (s : Scopes α) : s.run (.openScope :: ops ++ [.closeScope]) = s := by
  obtain ⟨innermost, inside, hrun, hlength⟩ := hb.nested.run_outer s.openScope
  have hinside : inside = [] := List.length_eq_zero_iff.1 (by rw [hb.closed] at hlength; omega)
  rw [run_snoc]
  change (s.openScope.run ops).closeScope = s
  rw [hrun, hinside]
  rfl

/-! ## Histories -/

/-- A stack is as a history says: the outermost scope stays open, a name is looked up as it was inserted last into the
innermost scope that holds it, and a block that closes just what it opens leaves all look-ups as they were. -/
structure Follows (h : List (Op α)) (s : Scopes α) : Prop where
  depth_pos : 1 ≤ s.depth
  closeScope_outermost : s.depth = 1 → s.closeScope = s
  retrieve : ∀ name r, s.retrieve name = r ↔ Found h (StillOpen h) name r
  retrieveOneLevel : ∀ name r, s.retrieveOneLevel name = r ↔ Found h (Innermost h) name r
  block : ∀ ops, Balanced ops → ∀ name,
    (s.run (.openScope :: ops ++ [.closeScope])).retrieve name = s.retrieve name ∧
      (s.run (.openScope :: ops ++ [.closeScope])).retrieveOneLevel name = s.retrieveOneLevel name

/-- Whatever is done to a new stack of scopes, it is as its history says. -/
theorem run_follows (h : List (Op α)) : Follows h (empty.run h) := by
  obtain ⟨ks, hm⟩ := exists_mirrors h
  constructor
  · exact depth_pos _
  · intro hdepth
    rw [depth, Nat.succ_inj, List.length_eq_zero_iff] at hdepth
    rw [closeScope, hdepth]
  · exact hm.retrieve_eq_iff
  · exact hm.retrieveOneLevel_eq_iff
  · intro ops hb name
    rw [hb.run_block]
    exact ⟨rfl, rfl⟩

/-- A name that a block binds anew, twice over, stands behind it for what it stood for before. -/
theorem run_follows_shadowed : Balanced [.insert "x" 3, .openScope, .insert "x" 4, .closeScope] ∧
    (empty.run [.insert "x" 1, .openScope, .insert "x" 2, .openScope, .insert "x" 3, .openScope, .insert "x" 4,
      .closeScope, .closeScope]).retrieve "x" = some 2 := by
  have hb : Balanced [.insert "x" 3, .openScope, .insert "x" 4, .closeScope] := ⟨by decide, by decide⟩
  exact ⟨hb, ((run_follows [.insert "x" 1, .openScope, .insert "x" 2]).block _ hb "x").1.trans (by decide)⟩

/-- It is not enough that a block closes no more scopes than it opens. Where a scope inside it stays open, the end of
the block closes that one: the scope of the block stays, and a name that it binds is still bound behind it. -/
theorem unclosed_block_binds : let ops : List (Op Nat) := [.insert "x" 1, .openScope]
    Nested ops ∧ (empty.run (.openScope :: ops ++ [.closeScope])).retrieve "x" = some 1 ∧
      (empty : Scopes Nat).retrieve "x" = none := by
  decide

end VCLang.Scopes
