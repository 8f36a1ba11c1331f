/-
What a check leaves behind. Whatever it goes through and whatever it reports, it closes each scope that it opens, and
leaves each loop and each function that it enters; so nothing changes but the innermost scope, which gets the names
that are declared in it. A loop is left where the number of loops is not zero, and `main` is looked up in the outermost
scope, among the functions of the library and the declarations outside all functions.
-/
import VCLang.Proofs.Verdict.Program
namespace VCLang

open Typing

/-! ## Statements by what they are part of -/

/-- What is in a statement that is part of a statement is part of one. -/
theorem parentOf_subtree {a : Arena} {s t : Stmt} {owner : StmtId} (ht : a.Has (t.entries (.stmt owner)))
    (hs : s ∈ t.subtrees) : ∃ id, a.parentOf (.stmt s.id) = some (.stmt id) := by
  induction t using Stmt.induct_stmts generalizing owner with
  | h t ih =>
    rw [t.subtrees_eq, List.mem_append, List.mem_singleton] at hs
    rcases hs with hs | rfl
    · obtain ⟨c, hc, hs⟩ := List.mem_flatMap.1 hs
      exact ih c hc ((held_stmt ht).2.2 c hc) hs
    · exact ⟨owner, Construct.parentOf_node (c := .stmt s) ht (by simp)⟩

/-- The body of a function is part of a declaration, and the statements in it are not. -/
theorem Program.Complete.parentOf_body {p : Program} (hp : p.Complete) {f : Function} (hf : .func f ∈ p.decls) :
    p.arena.parentOf (.stmt f.body.id) = some (.decl f.id) ∧
      ∀ t ∈ f.body.stmts, ∀ s ∈ t.subtrees, ∃ id, p.arena.parentOf (.stmt s.id) = some (.stmt id) := by
  have hall := hp.has_function hf
  constructor
  · rw [Function.entries, Arena.has_append, Arena.has_append] at hall
    exact Construct.parentOf_node (c := .stmt f.body.toStmt) hall.1.2 (by simp)
  · exact fun t ht s hs => parentOf_subtree ((held_function hall).2 t ht) hs

namespace Typing

open Check

variable {options : Options} {k k' k₁ : Checker} {errors : List Error} {bs cs : List (String × Binding)}

/-! ## What is left behind -/

/-- One state is another with some names more, declared one after another in the innermost scope. -/
structure Checker.Restored (k k' : Checker) (bs : List (String × Binding)) : Prop where
  depth : k'.env.depth = k.env.depth
  outer : k'.env.outer = k.env.outer
  /-- The latest binding stands in front. -/
  innermost : k'.env.innermost = bs.reverse ++ k.env.innermost
  loopDepth : k'.loopDepth = k.loopDepth
  function : k'.function = k.function

theorem Checker.Restored.trans (h : k.Restored k₁ bs) (h' : k₁.Restored k' cs) : k.Restored k' (bs ++ cs) where
  depth := h'.depth.trans h.depth
  outer := h'.outer.trans h.outer
  innermost := by rw [h'.innermost, h.innermost, List.reverse_append, List.append_assoc]
  loopDepth := h'.loopDepth.trans h.loopDepth
  function := h'.function.trans h.function

theorem bindAll_eq {α : Type} (s : Scopes α) (bs : List (String × α)) :
    s.bindAll bs = ⟨bs.reverse ++ s.innermost, s.outer⟩ := by
  induction bs generalizing s with
  | nil => rfl
  | cons b bs ih =>
    have hstep : s.bindAll (b :: bs) = (s.insert b.1 b.2).bindAll bs := rfl
    rw [hstep, ih, List.reverse_cons, List.append_assoc]
    rfl

theorem Checker.Restored.env (h : k.Restored k' bs) : k'.env = k.env.bindAll bs := by
  rw [bindAll_eq, ← h.innermost, ← h.outer]

theorem Checker.Restored.insert (k : Checker) (name : String) (b : Binding) (n : Nat) :
    k.Restored { k with env := k.env.insert name b, nextExpr := n } [(name, b)] := ⟨rfl, rfl, rfl, rfl, rfl⟩

theorem Checker.Restored.keep (k : Checker) (n : Nat) : k.Restored { k with nextExpr := n } [] :=
  ⟨rfl, rfl, rfl, rfl, rfl⟩

/-- Names with their declarations. -/
def declarations (bs : List (String × Binding)) : List (String × DeclId) := bs.map fun b => (b.1, b.2.decl)

/-! ## What is checked -/

/-- What is checked in one go: a construct, what belongs to a function, or declarations outside all functions. -/
inductive Portion where
  | construct (c : Construct)
  | param (p : Param)
  /-- The body of a function, which has no scope of its own. -/
  | body (b : Block)
  | tops (ds : List TopDecl)

namespace Portion

/-- The check of a portion. -/
def check (options : Options) : Portion → Check Checker Portion
  | construct c => construct <$> c.check options
  | param p => (fun _ => param p) <$> checkParam p
  | body b => body <$> checkBody options b
  | tops ds => tops <$> checkTopDecls options ds

/-- The names that a portion declares in the scope it stands in. -/
def bound : Portion → List (String × Binding)
  | construct c => c.introduces
  | param p => [p.bound]
  | body b => b.decls.map VarDecl.bound
  | tops ds => ds.map TopDecl.bound

end Portion

/-! ## One portion after another -/

theorem declarations_cons {b b' : String × Binding} {bs bs' : List (String × Binding)}
    (h : declarations [b'] = declarations [b]) (hs : declarations bs' = declarations bs) :
    declarations (b' :: bs') = declarations (b :: bs) := congrArg₂ (· ++ ·) h hs

theorem restored_checkVarDecl {d d' : VarDecl} (h : (checkVarDecl d).Ends k d' k' errors) :
    k.Restored k' [d'.bound] ∧ declarations [d'.bound] = declarations [d.bound] := by
  obtain ⟨n', own, hinit, -, rfl⟩ := elaborates_checkVarDecl h
  have hbound : d'.bound = (d.ident.spelling, d'.binding) := by rw [VarDecl.bound, hinit.ident]
  have hdecl : d'.binding.decl = d.binding.decl := hinit.id
  refine ⟨hbound ▸ .insert k _ _ n', ?_⟩
  rw [hbound, declarations, declarations, List.map_singleton, List.map_singleton, hdecl]
  rfl

theorem restored_checkVarDecls {ds ds' : List VarDecl} (h : (checkVarDecls ds).Ends k ds' k' errors) :
    k.Restored k' (ds'.map VarDecl.bound) ∧
      declarations (ds'.map VarDecl.bound) = declarations (ds.map VarDecl.bound) := by
  induction ds generalizing k ds' errors with
  | nil =>
    obtain ⟨rfl, rfl, rfl⟩ := ends_pure.1 h
    exact ⟨.keep _ _, rfl⟩
  | cons d ds ih =>
    simp only [checkVarDecls, ends_bind, ends_pure] at h
    obtain ⟨d', _, _, _, rfl, hd, ds', _, _, _, rfl, hds, rfl, rfl, rfl⟩ := h
    obtain ⟨hfirst, hname⟩ := restored_checkVarDecl hd
    obtain ⟨hrest, hnames⟩ := ih hds
    exact ⟨hfirst.trans hrest, declarations_cons hname hnames⟩

theorem restored_checkFunction {f f' : Function} (h : (checkFunction options f).Ends k f' k' errors) :
    k.Restored k' [(f'.ident.spelling, f'.binding)] ∧
      declarations [(f'.ident.spelling, f'.binding)] = declarations [(f.ident.spelling, f.binding)] := by
  obtain ⟨n', helaborates, rfl⟩ := elaborates_checkFunction h
  cases helaborates
  exact ⟨.insert k _ _ n', rfl⟩

theorem restored_checkTopDecls {ds ds' : List TopDecl} (h : (checkTopDecls options ds).Ends k ds' k' errors) :
    k.Restored k' (ds'.map TopDecl.bound) ∧
      declarations (ds'.map TopDecl.bound) = declarations (ds.map TopDecl.bound) := by
  induction ds generalizing k ds' errors with
  | nil =>
    obtain ⟨rfl, rfl, rfl⟩ := ends_pure.1 h
    exact ⟨.keep _ _, rfl⟩
  | cons d ds ih =>
    simp only [checkTopDecls, ends_bind, ends_pure] at h
    obtain ⟨d', k₁, _, _, rfl, hd, ds', _, _, _, rfl, hds, rfl, rfl, rfl⟩ := h
    obtain ⟨hrest, hnames⟩ := ih hds
    obtain ⟨hfirst, hname⟩ : k.Restored k₁ [d'.bound] ∧ declarations [d'.bound] = declarations [d.bound] := by
      cases d with
      | func f =>
        obtain ⟨f', hf, rfl⟩ := ends_map.1 hd
        exact restored_checkFunction hf
      | var d =>
        obtain ⟨d', hvar, rfl⟩ := ends_map.1 hd
        exact restored_checkVarDecl hvar
    exact ⟨hfirst.trans hrest, declarations_cons hname hnames⟩

/-- Whatever is checked, from whatever state on: the state behind it is that in front of it, with the names that the
portion declares. -/
theorem Portion.restored (options : Options) (x : Portion) (k : Checker) :
    let o := x.check options k
    k.Restored o.state o.value.bound ∧ declarations o.value.bound = declarations x.bound := by
  have h := ends (x.check options) k
  generalize x.check options k = o at h ⊢
  obtain ⟨x', k', errors⟩ := o
  cases x with
  | construct c =>
    obtain ⟨c', hc, rfl⟩ := ends_map.1 h
    cases c with
    | expr whole e =>
      obtain ⟨e', he, rfl⟩ := ends_map.1 hc
      obtain ⟨n', -, rfl⟩ := ends_onExpr.1 he
      exact ⟨.keep k n', rfl⟩
    | var d =>
      obtain ⟨d', hd, rfl⟩ := ends_map.1 hc
      exact restored_checkVarDecl hd
    | stmt s =>
      obtain ⟨s', hs, rfl⟩ := ends_map.1 hc
      obtain ⟨n', -, rfl⟩ := elaboratesStmtAs options s hs
      exact ⟨.keep k n', rfl⟩
    | func f =>
      obtain ⟨f', hf, rfl⟩ := ends_map.1 hc
      exact restored_checkFunction hf
  | param p =>
    obtain ⟨_, hp, rfl⟩ := ends_map.1 h
    simp only [checkParam, ends_bind, ends_declare, ends_reportOption] at hp
    obtain ⟨_, _, _, _, -, ⟨rfl, -⟩, rfl, -⟩ := hp
    exact ⟨.insert k _ _ _, rfl⟩
  | body b =>
    obtain ⟨b', hb, rfl⟩ := ends_map.1 h
    simp only [checkBody, ends_bind, ends_pure] at hb
    obtain ⟨decls', k₁, _, _, -, hdecls, stmts', _, _, _, -, hstmts, rfl, rfl, -⟩ := hb
    obtain ⟨hdecls, hnames⟩ := restored_checkVarDecls hdecls
    obtain ⟨n', -, rfl⟩ := elaborates_checkStmts hstmts
    have hrestored := hdecls.trans (.keep k₁ n')
    rw [List.append_nil] at hrestored
    exact ⟨hrestored, hnames⟩
  | tops ds =>
    obtain ⟨ds', hds, rfl⟩ := ends_map.1 h
    exact restored_checkTopDecls hds

/-! ## Loops -/

/-- The check of a loop from where it has been entered to where it is left. -/
def checkInside (options : Options) : Stmt → Check Checker Stmt
  | .whileStmt info cond body => do
    let cond ← checkCondition .whileConditionNotBoolean cond
    let body ← checkStmt options body
    return .whileStmt info cond body
  | .forStmt info init cond update body => do
    let init ← checkOption init
    let cond ← fillCondition info.span cond
    let cond ← checkCondition .forConditionNotBoolean cond
    let update ← checkOption update
    let body ← checkStmt options body
    return .forStmt info init (some cond) update body
  | s => checkStmt options s

/-- A loop is entered once and left once. -/
theorem checkStmt_loop (options : Options) {s : Stmt} (hs : s.isLoop = true) : checkStmt options s = do
    enterLoop
    let s' ← checkInside options s
    leaveLoop
    return s' := by
  cases s with
  | whileStmt info cond body => simp only [checkStmt, checkInside, bind_assoc, pure_bind]
  | forStmt info init cond update body => simp only [checkStmt, checkInside, bind_assoc, pure_bind]
  | _ => cases hs

theorem restored_checkInside {s s' : Stmt} (h : (checkInside options s).Ends k s' k' errors) : k.Restored k' [] := by
  cases s with
  | whileStmt info cond body =>
    simp only [checkInside, ends_bind, ends_pure] at h
    obtain ⟨cond', _, _, _, -, hcond, body', _, _, _, -, hbody, -, rfl, -⟩ := h
    obtain ⟨_, _, _, -, -, -, rfl⟩ := elaborates_checkCondition (fun _ => rfl) hcond
    obtain ⟨n', -, rfl⟩ := elaboratesStmtAs options body hbody
    exact .keep k n'
  | forStmt info init cond update body =>
    simp only [checkInside, ends_bind, ends_pure] at h
    obtain ⟨_, _, _, _, -, hinit, filled, k₁, second, _, -, hfill, cond', _, second', _, -, hcheck, update', _, _, _, -,
      hupdate, body', _, _, _, -, hbody, -, rfl, -⟩ := h
    obtain ⟨_, -, rfl⟩ := elaborates_checkOption hinit
    obtain ⟨_, -, rfl⟩ := elaborates_forCondition (fun _ => rfl)
      (ends_bind.2 ⟨filled, k₁, second, second', rfl, hfill, hcheck⟩)
    obtain ⟨_, -, rfl⟩ := elaborates_checkOption hupdate
    obtain ⟨n', -, rfl⟩ := elaboratesStmtAs options body hbody
    exact .keep k n'
  | _ =>
    obtain ⟨n', -, rfl⟩ := elaboratesStmtAs options _ h
    exact .keep k n'

theorem loopDepth_checkInside (options : Options) (s : Stmt) (k : Checker) :
    ((do enterLoop; checkInside options s : Check Checker Stmt) k).state.loopDepth = k.loopDepth + 1 :=
  (restored_checkInside (ends (checkInside options s) { k with loopDepth := k.loopDepth + 1 })).loopDepth

/-! ## Programs -/

/-- The state in which `main` is looked up. -/
def Checker.last (options : Options) (p : Program) : Checker := (checkTopDecls options p.decls (.initial p)).state

/-- In the end one scope is open, with the functions of the library and the declarations outside all functions. -/
theorem restored_last (options : Options) (p : Program) :
    (Checker.initial p).Restored (.last options p) ((check options p).1.decls.map TopDecl.bound) := by
  rw [check_eq]
  exact (Portion.restored options (.tops p.decls) (.initial p)).1

theorem env_last (options : Options) (p : Program) : (Checker.last options p).env =
    ⟨((check options p).1.decls.map TopDecl.bound).reverse ++
      ((Library.prototypesFor p).map fun f => (f.ident.spelling, f.binding)).reverse, []⟩ := by
  have hinitial : (Checker.initial p).env =
      ⟨((Library.prototypesFor p).map fun f => (f.ident.spelling, f.binding)).reverse, []⟩ := by
    rw [Checker.initial, bindAll_prototypes, bindAll_eq, Scopes.empty, List.append_nil]
  rw [(restored_last options p).env, bindAll_eq, hinitial]

/-- The check of a program restores its state. -/
structure Restoring (options : Options) (p : Program) : Prop where
  /-- Whatever is checked, from whatever state on and with whatever errors: it leaves just its own names behind. -/
  portion : ∀ (x : Portion) (k : Checker), let o := x.check options k
    k.Restored o.state o.value.bound ∧ declarations o.value.bound = declarations x.bound
  /-- A compound is checked like a body in a scope of its own. -/
  compound : ∀ b : Block, checkStmt options b.toStmt = do
    openScope
    let b' ← checkBody options b
    closeScope
    return b'.toStmt
  /-- Of the compounds of a program just the bodies of functions are part of declarations. -/
  body : ∀ f, .func f ∈ p.decls → p.arena.parentOf (.stmt f.body.id) = some (.decl f.id) ∧
    ∀ t ∈ f.body.stmts, ∀ s ∈ t.subtrees, ∃ id, p.arena.parentOf (.stmt s.id) = some (.stmt id)
  /-- A loop is entered and left once, and where it is left, from whatever state it was entered, the number of loops
  is not zero. -/
  loop : ∀ s : Stmt, s.isLoop = true →
    (checkStmt options s = do
      enterLoop
      let s' ← checkInside options s
      leaveLoop
      return s') ∧
    ∀ k, ((do enterLoop; checkInside options s : Check Checker Stmt) k).state.loopDepth = k.loopDepth + 1
  /-- The last that is reported is what is wrong with `main`, as it is found behind all declarations. -/
  main : (check options p).2 =
    (checkTopDecls options p.decls (.initial p)).errors ++ reported (mainFault? (Checker.last options p).env) p.span
  /-- There one scope is open, with the functions of the library and the declarations outside all functions. -/
  outermost : (Checker.last options p).env =
    ⟨((check options p).1.decls.map TopDecl.bound).reverse ++
      ((Library.prototypesFor p).map fun f => (f.ident.spelling, f.binding)).reverse, []⟩
  loopDepth : (Checker.last options p).loopDepth = 0
  function : (Checker.last options p).function = none
  found : ∀ name b, (Checker.last options p).env.retrieve name = some b →
    (∃ d ∈ (check options p).1.decls, (name, b) = d.bound) ∨
      ∃ f ∈ Library.prototypesFor p, (name, b) = (f.ident.spelling, f.binding)

end Typing

/-- Whatever it reports of what was parsed, a check leaves every scope, loop and function that it has come into, so
that what it goes through leaves nothing behind but the names that are declared in the scope it stands in. -/
theorem check_restores {source : String} {p : Program} (h : (parse source).result = .ok p) (options : Options) :
    Restoring options p := by
  obtain ⟨hplain, hnumbered⟩ := parse_built h
  have hlast := restored_last options p
  refine ⟨Portion.restored options, fun b => ?_, fun f => hnumbered.complete.parentOf_body,
    fun s hs => ⟨checkStmt_loop options hs, loopDepth_checkInside options s⟩, congrArg Prod.snd (check_eq options p),
    env_last options p, hlast.loopDepth, hlast.function, fun name b hb => ?_⟩
  · simp only [Block.toStmt, checkStmt, checkBody, bind_assoc, pure_bind]
  · rw [hlast.env] at hb
    rcases Visit.mem_bindAll hb with hb | hb
    · obtain ⟨d, hd, heq⟩ := List.mem_map.1 hb
      exact .inl ⟨d, hd, heq.symm⟩
    · exact .inr (mem_library hb)

/-- Scopes and loops within each other, a name that is declared again, one that is not declared, and jumps outside all
loops. -/
theorem check_restores_nested : ∃ source p, (parse source).result = .ok p ∧ Restoring .standard p := by
  let source := "int main; int f(int a, int a){int x = y; while(x){for(;;){int x; break;} {void y; ;}} continue;}"
  have hparses : (parse source).result.isOk = true := by decide +kernel
  obtain ⟨p, hp⟩ := exists_of_isOk hparses
  exact ⟨source, p, hp, check_restores hp .standard⟩

end VCLang
