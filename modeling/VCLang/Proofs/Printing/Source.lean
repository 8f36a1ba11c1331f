/-
What a parse builds can be printed: its names, literals and operators are words of the text, its types and
initial values have the form that a declaration can give them, and no branch in front of an `else` is open, since
a statement that ends in an `if` would have taken the `else`.
-/
import VCLang.Proofs.Grammar.Built
import VCLang.Proofs.Printing.Statement
namespace VCLang

/-! ## Legible parsers -/

/-- The tokens that a parser has not moved past are legible, if a text can mean something by them. -/
def Parser.Legible (p : Parser) : Prop := ∀ t ∈ p.tokens, t.kind ≠ .error → t.kind ≠ .eof → t.word.Legible

theorem Parser.Legible.of_tokens {p q : Parser} (h : p.Legible) (ht : q.tokens = p.tokens) : q.Legible := by
  rw [Legible, ht]
  exact h

theorem Parser.Legible.advance {p : Parser} (h : p.Legible) : p.advance.Legible := by
  unfold Parser.advance
  split
  · exact h
  · rename_i l ls hls
    intro t ht
    refine h t ?_
    rw [tokens, hls]
    exact List.mem_cons_of_mem _ ht

theorem Parser.Legible.current {p : Parser} (h : p.Legible) (herror : p.current.kind ≠ .error)
    (heof : p.current.kind ≠ .eof) : p.current.word.Legible := h p.current List.mem_cons_self herror heof

/-- A token of a kind that has only one spelling is spelt by it. -/
theorem Parser.Legible.spelling {p : Parser} (h : p.Legible) (hk : p.current.kind.isFixed = true) :
    p.current.spelling = p.current.kind.spelling := by
  have hword := h.current (fun herror => by rw [herror] at hk; cases hk) fun heof => by rw [heof] at hk; cases hk
  exact congrArg Word.spelling (hword.word_eq hk)

namespace Parse

variable {α : Type} {p q : Parser}

theorem Yields.legible_advance {t : Token} (h : advance.Yields p t q) (hp : p.Legible) : t = p.current ∧ q.Legible := by
  obtain ⟨rfl, rfl⟩ := yields_advance.1 h
  exact ⟨rfl, hp.advance⟩

theorem Yields.legible_expect {k : TokenKind} {t : Token} (h : (expect k).Yields p t q) (hp : p.Legible) :
    q.Legible := by
  unfold expect at h
  simp only [yields_bind, yields_kind] at h
  obtain ⟨_, _, ⟨rfl, rfl⟩, h⟩ := h
  split_ifs at h
  · exact (h.legible_advance hp).2
  · exact absurd h not_yields_fail

theorem word_unbound {t : Token} (h : t.kind = .ident) : (Ident.unbound t.spelling t.span).word = t.word := by
  rw [Token.word, h]
  rfl

theorem Yields.legible_expectIdent {i : Ident} (h : expectIdent.Yields p i q) (hp : p.Legible) :
    i.word.Legible ∧ q.Legible := by
  unfold expectIdent at h
  simp only [yields_bind, yields_kind] at h
  obtain ⟨_, _, ⟨rfl, rfl⟩, h⟩ := h
  split_ifs at h with hk
  · simp only [yields_bind, yields_pure] at h
    obtain ⟨t, r, ht, rfl, rfl⟩ := h
    obtain ⟨rfl, hq⟩ := ht.legible_advance hp
    rw [word_unbound hk]
    exact ⟨hp.current (by rw [hk]; decide) (by rw [hk]; decide), hq⟩
  · exact absurd h not_yields_fail

/-- A step from a legible parser yields results of some sort and a legible parser. -/
def Ensures (m : Parse α) (ok : α → Prop) : Prop := ∀ ⦃p a q⦄, m.Yields p a q → p.Legible → ok a ∧ q.Legible

namespace Ensures

variable {ok : α → Prop} {m : Parse α} {test : TokenKind → Bool}

theorem manyUpTo (h : Ensures m ok) (n : Nat) : Ensures (manyUpTo test m n) fun as => ∀ a ∈ as, ok a := by
  induction n with
  | zero =>
    intro p as q hy hp
    obtain ⟨rfl, rfl⟩ := yields_pure.1 hy
    exact ⟨by simp, hp⟩
  | succ n ih =>
    intro p as q hy hp
    unfold Parse.manyUpTo at hy
    simp only [yields_bind, yields_kind] at hy
    obtain ⟨_, _, ⟨rfl, rfl⟩, hy⟩ := hy
    split_ifs at hy
    · simp only [yields_bind, yields_pure] at hy
      obtain ⟨a, r, ha, as, _, has, rfl, rfl⟩ := hy
      obtain ⟨hok, hr⟩ := h ha hp
      obtain ⟨hoks, hq⟩ := ih has hr
      exact ⟨List.forall_mem_cons.2 ⟨hok, hoks⟩, hq⟩
    · obtain ⟨rfl, rfl⟩ := yields_pure.1 hy
      exact ⟨by simp, hp⟩

theorem many (h : Ensures m ok) : Ensures (many test m) fun as => ∀ a ∈ as, ok a :=
  fun _ _ _ hy hp => h.manyUpTo _ hy hp

/-- A list with commas is not empty. -/
theorem commaList (h : Ensures m ok) : Ensures (commaList m) fun as => as ≠ [] ∧ ∀ a ∈ as, ok a := by
  have hnext : Ensures (do let _ ← advance; m) ok := by
    intro p a q hy hp
    simp only [yields_bind] at hy
    obtain ⟨t, r, ht, hy⟩ := hy
    exact h hy (ht.legible_advance hp).2
  intro p as q hy hp
  unfold Parse.commaList at hy
  simp only [yields_bind, yields_pure] at hy
  obtain ⟨a, r, ha, as, _, has, rfl, rfl⟩ := hy
  obtain ⟨hok, hr⟩ := h ha hp
  obtain ⟨hoks, hq⟩ := hnext.many has hr
  exact ⟨⟨List.cons_ne_nil _ _, List.forall_mem_cons.2 ⟨hok, hoks⟩⟩, hq⟩

theorem parenthesised (h : Ensures m ok) : Ensures (parenthesised m) fun as => ∀ a ∈ as, ok a := by
  intro p as q hy hp
  unfold Parse.parenthesised at hy
  simp only [yields_bind, yields_kind] at hy
  obtain ⟨t, r, ht, _, _, ⟨rfl, rfl⟩, hy⟩ := hy
  have hr := ht.legible_expect hp
  split_ifs at hy
  · simp only [yields_bind, yields_pure] at hy
    obtain ⟨_, _, ⟨rfl, rfl⟩, t', r', ht', rfl, rfl⟩ := hy
    exact ⟨by simp, ht'.legible_expect hr⟩
  · simp only [yields_bind, yields_pure] at hy
    obtain ⟨as, r', has, t', r'', ht', rfl, rfl⟩ := hy
    obtain ⟨⟨-, hoks⟩, hr'⟩ := h.commaList has hr
    exact ⟨hoks, ht'.legible_expect hr'⟩

end Ensures

theorem Yields.legible_newExpr {build : ExprInfo → Expr} {span : Span} {e : Expr}
    (h : (Parse.newExpr build span).Yields p e q) (hp : p.Legible) : (∃ info, e = build info) ∧ q.Legible := by
  cases h
  exact ⟨⟨_, rfl⟩, hp⟩

theorem Yields.legible_newDecl {kind : DeclKind} {ident : Ident} {ty : Ty} {span : Span} {id : DeclId}
    (h : (Parse.newDecl kind ident ty span).Yields p id q) (hp : p.Legible) : q.Legible := by
  cases h
  exact hp

end Parse

open Parse

namespace Grammar

variable {p q : Parser}

/-! ## Expressions -/

theorem ensures_nameForm {expr : Power → Parse Expr} (h : ∀ power, Ensures (expr power) Expr.Written) :
    Ensures (nameForm expr) Expr.Written := by
  intro p e q hy hp
  unfold nameForm at hy
  simp only [yields_bind, yields_start, yields_kind] at hy
  obtain ⟨_, _, ⟨rfl, rfl⟩, ident, r, hident, _, _, ⟨rfl, rfl⟩, hy⟩ := hy
  obtain ⟨hword, hr⟩ := hident.legible_expectIdent hp
  split at hy
  · simp only [yields_bind, yields_spanFrom] at hy
    obtain ⟨args, r₁, hargs, _, _, ⟨rfl, rfl⟩, hnew⟩ := hy
    obtain ⟨hwritten, hr₁⟩ := (h _).parenthesised hargs hr
    obtain ⟨⟨info, rfl⟩, hq⟩ := hnew.legible_newExpr hr₁
    exact ⟨.call hword hwritten, hq⟩
  · simp only [yields_bind, yields_spanFrom] at hy
    obtain ⟨t, r₁, ht, index, r₂, hindex, t', r₃, ht', _, _, ⟨rfl, rfl⟩, hnew⟩ := hy
    obtain ⟨hwritten, hr₂⟩ := h _ hindex (ht.legible_advance hr).2
    obtain ⟨⟨info, rfl⟩, hq⟩ := hnew.legible_newExpr (ht'.legible_expect hr₂)
    exact ⟨.arrayAccess hword hwritten, hq⟩
  · simp only [yields_bind, yields_spanFrom] at hy
    obtain ⟨_, _, ⟨rfl, rfl⟩, hnew⟩ := hy
    obtain ⟨⟨info, rfl⟩, hq⟩ := hnew.legible_newExpr hr
    exact ⟨.var hword, hq⟩

theorem legible_ofToken {t : Token} (h : Dispatch.standard.operand t.kind = some .literal)
    (ht : t.kind ≠ .error → t.kind ≠ .eof → t.word.Legible) : (Literal.ofToken t).word.Legible := by
  have herror : t.kind ≠ .error := fun hk => by rw [hk] at h; cases h
  have heof : t.kind ≠ .eof := fun hk => by rw [hk] at h; cases h
  have hword : (Literal.ofToken t).word = t.word := by
    obtain ⟨k, s, span⟩ := t
    cases k <;> cases h <;> rfl
  rw [hword]
  exact ht herror heof

theorem ensures_operand {expr : Power → Parse Expr} (h : ∀ power, Ensures (expr power) Expr.Written)
    {form : OperandForm} {e : Expr} (hform : Dispatch.standard.operand p.current.kind = some form) (hp : p.Legible)
    (hy : (operand expr form).Yields p e q) : e.Written ∧ q.Legible := by
  cases form with
  | literal =>
    simp only [operand, yields_bind] at hy
    obtain ⟨t, r, ht, hnew⟩ := hy
    obtain ⟨rfl, hr⟩ := ht.legible_advance hp
    obtain ⟨⟨info, rfl⟩, hq⟩ := hnew.legible_newExpr hr
    exact ⟨.literal (legible_ofToken hform hp.current), hq⟩
  | sign =>
    simp only [operand, yields_bind] at hy
    obtain ⟨t, r, ht, operand, r₁, hoperand, hnew⟩ := hy
    obtain ⟨rfl, hr⟩ := ht.legible_advance hp
    obtain ⟨hwritten, hr₁⟩ := h _ hoperand hr
    obtain ⟨⟨info, rfl⟩, hq⟩ := hnew.legible_newExpr hr₁
    have hfixed : p.current.kind.isFixed = true := by
      revert hform
      cases p.current.kind <;> decide
    exact ⟨.unary ⟨_, hform, hp.spelling hfixed⟩ hwritten, hq⟩
  | name => exact ensures_nameForm h hy hp
  | group =>
    simp only [operand, yields_bind, yields_pure] at hy
    obtain ⟨t, r, ht, e, r₁, he, t', r₂, ht', rfl, rfl⟩ := hy
    obtain ⟨hwritten, hr₁⟩ := h _ he (ht.legible_advance hp).2
    exact ⟨hwritten, ht'.legible_expect hr₁⟩

theorem ensures_continueWith {expr : Power → Parse Expr} (h : ∀ power, Ensures (expr power) Expr.Written)
    {form : InfixForm} {power : Power} {left e : Expr}
    (hform : Dispatch.standard.continuation p.current.kind = some (form, power)) (hp : p.Legible)
    (hleft : left.Written) (hy : (continueWith expr power left form).Yields p e q) : e.Written ∧ q.Legible := by
  cases form with
  | binary =>
    simp only [continueWith, yields_bind] at hy
    obtain ⟨t, r, ht, right, r₁, hright, hnew⟩ := hy
    obtain ⟨rfl, hr⟩ := ht.legible_advance hp
    obtain ⟨hwritten, hr₁⟩ := h _ hright hr
    obtain ⟨⟨info, rfl⟩, hq⟩ := hnew.legible_newExpr hr₁
    have hfixed : p.current.kind.isFixed = true := by
      revert hform
      cases p.current.kind <;> first | exact fun _ => rfl | rintro ⟨⟩
    exact ⟨.binary ⟨_, _, hform, hp.spelling hfixed⟩ hleft hwritten, hq⟩
  | assignment =>
    simp only [continueWith, yields_bind] at hy
    obtain ⟨t, r, ht, value, r₁, hvalue, hnew⟩ := hy
    obtain ⟨hwritten, hr₁⟩ := h _ hvalue (ht.legible_advance hp).2
    obtain ⟨⟨info, rfl⟩, hq⟩ := hnew.legible_newExpr hr₁
    exact ⟨.assign hleft hwritten, hq⟩

theorem ensures_extendUpTo {expr : Power → Parse Expr} (h : ∀ power, Ensures (expr power) Expr.Written)
    {power : Power} (n : Nat) {left e : Expr} {p : Parser} (hp : p.Legible) (hleft : left.Written)
    (hy : (extendUpTo .standard expr power n left).Yields p e q) : e.Written ∧ q.Legible := by
  induction n generalizing left p with
  | zero =>
    obtain ⟨rfl, rfl⟩ := yields_pure.1 hy
    exact ⟨hleft, hp⟩
  | succ n ih =>
    simp only [extendUpTo, yields_bind, yields_kind] at hy
    obtain ⟨_, _, ⟨rfl, rfl⟩, hy⟩ := hy
    split at hy
    · obtain ⟨rfl, rfl⟩ := yields_pure.1 hy
      exact ⟨hleft, hp⟩
    · rename_i form power' hform
      split_ifs at hy
      · simp only [yields_bind] at hy
        obtain ⟨e₁, r, he₁, hy⟩ := hy
        obtain ⟨hwritten, hr⟩ := ensures_continueWith h hform hp hleft he₁
        exact ih hr hwritten hy
      · obtain ⟨rfl, rfl⟩ := yields_pure.1 hy
        exact ⟨hleft, hp⟩

theorem ensures_expressionUpTo (n : Nat) (power : Power) :
    Ensures (expressionUpTo .standard n power) Expr.Written := by
  induction n generalizing power with
  | zero =>
    intro p e q hy
    exact absurd hy not_yields_illegalPrimary
  | succ n ih =>
    intro p e q hy hp
    simp only [expressionUpTo, yields_bind, yields_kind] at hy
    obtain ⟨_, _, ⟨rfl, rfl⟩, hy⟩ := hy
    split at hy
    · exact absurd hy not_yields_illegalPrimary
    · rename_i form hform
      simp only [yields_bind] at hy
      obtain ⟨left, r, hleft, hy⟩ := hy
      obtain ⟨hwritten, hr⟩ := ensures_operand ih hform hp hleft
      exact ensures_extendUpTo ih _ hr hwritten hy

theorem ensures_expression (power : Power) : Ensures (expression .standard power) Expr.Written :=
  fun _ _ _ hy => ensures_expressionUpTo _ power hy

/-! ## Declarations -/

theorem ensures_typeName : Ensures typeName Ty.Named := by
  intro p t q hy hp
  unfold typeName at hy
  simp only [yields_bind, yields_kind] at hy
  obtain ⟨_, _, ⟨rfl, rfl⟩, hy⟩ := hy
  split at hy
  · rename_i t' ht'
    simp only [yields_bind, yields_pure] at hy
    obtain ⟨_, r, hadvance, rfl, rfl⟩ := hy
    exact ⟨⟨_, ht'⟩, (hadvance.legible_advance hp).2⟩
  · exact absurd hy not_yields_fail

theorem ensures_arraySize : Ensures arraySize fun size => ∀ n ∈ size, n ≤ maxArraySize := by
  intro p size q hy hp
  unfold arraySize at hy
  simp only [yields_bind, yields_kind] at hy
  obtain ⟨_, _, ⟨rfl, rfl⟩, hy⟩ := hy
  split_ifs at hy
  · simp only [yields_bind, yields_current] at hy
    obtain ⟨_, _, ⟨rfl, rfl⟩, hy⟩ := hy
    split at hy
    · rename_i n hn
      simp only [yields_bind, yields_pure] at hy
      obtain ⟨t, r, ht, rfl, rfl⟩ := hy
      obtain ⟨-, -, -, hle⟩ := boundedDecimal?_eq_some_iff.1 hn
      exact ⟨by simpa using hle, (ht.legible_advance hp).2⟩
    · exact absurd hy not_yields_fail
  · obtain ⟨rfl, rfl⟩ := yields_pure.1 hy
    exact ⟨by simp, hp⟩

theorem Ty.Named.base_eq {t : Ty} (h : t.Named) : t.base = t ∧ t.size? = none := by
  obtain ⟨k, hk⟩ := h
  cases k <;> cases hk <;> exact ⟨rfl, rfl⟩

theorem ensures_declaratorSuffix {base : Ty} (hbase : base.Named) : Ensures (declaratorSuffix base) Ty.Written := by
  intro p t q hy hp
  unfold declaratorSuffix at hy
  simp only [yields_bind, yields_kind] at hy
  obtain ⟨_, _, ⟨rfl, rfl⟩, hy⟩ := hy
  split_ifs at hy
  · simp only [yields_bind, yields_pure] at hy
    obtain ⟨t, r, ht, size, r₁, hsize, t', r₂, ht', rfl, rfl⟩ := hy
    obtain ⟨hle, hr₁⟩ := ensures_arraySize hsize (ht.legible_advance hp).2
    exact ⟨⟨hbase, hle⟩, ht'.legible_expect hr₁⟩
  · obtain ⟨rfl, rfl⟩ := yields_pure.1 hy
    obtain ⟨hself, hsize⟩ := Ty.Named.base_eq hbase
    exact ⟨⟨by rwa [hself], by simp [hsize]⟩, hp⟩

theorem ensures_initialiser : Ensures (initialiser .standard) Expr.WrittenInit := by
  intro p e q hy hp
  unfold initialiser at hy
  simp only [yields_bind, yields_kind] at hy
  obtain ⟨_, _, ⟨rfl, rfl⟩, hy⟩ := hy
  split_ifs at hy
  · simp only [yields_bind, yields_spanFrom] at hy
    obtain ⟨t, r, ht, elements, r₁, helements, t', r₂, ht', _, _, ⟨rfl, rfl⟩, hnew⟩ := hy
    obtain ⟨⟨hne, hwritten⟩, hr₁⟩ := (ensures_expression .lowest).commaList helements (ht.legible_advance hp).2
    obtain ⟨⟨info, rfl⟩, hq⟩ := hnew.legible_newExpr (ht'.legible_expect hr₁)
    exact ⟨.list hne hwritten, hq⟩
  · obtain ⟨hwritten, hq⟩ := ensures_expression .lowest hy hp
    exact ⟨.expr hwritten, hq⟩

theorem ensures_initDeclarator {start : Position} {base : Ty} {ident : Ident} {isGlobal : Bool} (hbase : base.Named)
    (hident : ident.word.Legible) :
    Ensures (initDeclarator .standard start base ident isGlobal) fun d => d.Written ∧ d.isGlobal = isGlobal := by
  intro p decl q hy hp
  unfold initDeclarator at hy
  simp only [yields_bind, yields_ite_bind, yields_kind, yields_spanFrom, yields_pure] at hy
  obtain ⟨ty, _, hty, _, r, ⟨rfl, rfl⟩, init, _, hinit, _, r₁, ⟨rfl, rfl⟩, id, r₂, hnew, rfl, rfl⟩ := hy
  obtain ⟨hwritten, hr⟩ := ensures_declaratorSuffix hbase hty hp
  obtain ⟨hvalue, hr₁⟩ : (∀ e ∈ init, e.WrittenInit) ∧ r₁.Legible := by
    split_ifs at hinit
    · simp only [yields_bind, yields_map] at hinit
      obtain ⟨t, r₂, ht, e, he, rfl⟩ := hinit
      obtain ⟨hvalue, hr₁⟩ := ensures_initialiser he (ht.legible_advance hr).2
      exact ⟨by simpa using hvalue, hr₁⟩
    · obtain ⟨rfl, rfl⟩ := yields_pure.1 hinit
      exact ⟨by simp, hr⟩
  exact ⟨⟨⟨hident, hwritten, hvalue⟩, rfl⟩, hnew.legible_newDecl hr₁⟩

theorem ensures_varDecls {start : Position} {base : Ty} {first : Ident} {isGlobal : Bool} (hbase : base.Named)
    (hfirst : first.word.Legible) :
    Ensures (varDecls .standard start base first isGlobal) fun ds => ∀ d ∈ ds, d.Written ∧ d.isGlobal = isGlobal := by
  have hmore : Ensures (do
      let _ ← advance
      let start ← Parse.start
      let ident ← expectIdent
      initDeclarator .standard start base ident isGlobal) fun d => d.Written ∧ d.isGlobal = isGlobal := by
    intro p decl q hy hp
    simp only [yields_bind, yields_start] at hy
    obtain ⟨t, r, ht, _, _, ⟨rfl, rfl⟩, ident, r₁, hident, hy⟩ := hy
    obtain ⟨hword, hr₁⟩ := hident.legible_expectIdent (ht.legible_advance hp).2
    exact ensures_initDeclarator hbase hword hy hr₁
  intro p ds q hy hp
  unfold varDecls at hy
  rw [yields_bind] at hy
  obtain ⟨decl, r, hdecl, hy⟩ := hy
  rw [yields_bind] at hy
  obtain ⟨decls, r₁, hdecls, hy⟩ := hy
  simp only [yields_bind, yields_pure] at hy
  obtain ⟨t, _, ht, rfl, rfl⟩ := hy
  obtain ⟨hwritten, hr⟩ := ensures_initDeclarator hbase hfirst hdecl hp
  obtain ⟨hwrittens, hr₁⟩ := hmore.many hdecls hr
  exact ⟨List.forall_mem_cons.2 ⟨hwritten, hwrittens⟩, ht.legible_expect hr₁⟩

theorem ensures_param : Ensures param Param.Written := by
  intro p a q hy hp
  unfold param at hy
  simp only [yields_bind, yields_start, yields_spanFrom, yields_pure] at hy
  obtain ⟨_, _, ⟨rfl, rfl⟩, base, r, hbase, ident, r₁, hident, ty, r₂, hty, _, _, ⟨rfl, rfl⟩, id, r₃, hnew, rfl,
    rfl⟩ := hy
  obtain ⟨hnamed, hr⟩ := ensures_typeName hbase hp
  obtain ⟨hword, hr₁⟩ := hident.legible_expectIdent hr
  obtain ⟨hwritten, hr₂⟩ := ensures_declaratorSuffix hnamed hty hr₁
  exact ⟨⟨hword, hwritten⟩, hnew.legible_newDecl hr₂⟩

theorem ensures_localDecls : Ensures (localDecls .standard) fun ds => ∀ d ∈ ds, d.Written ∧ d.isGlobal = false := by
  intro p ds q hy hp
  unfold localDecls at hy
  simp only [yields_bind, yields_start] at hy
  obtain ⟨_, _, ⟨rfl, rfl⟩, base, r, hbase, ident, r₁, hident, hy⟩ := hy
  obtain ⟨hnamed, hr⟩ := ensures_typeName hbase hp
  obtain ⟨hword, hr₁⟩ := hident.legible_expectIdent hr
  exact ensures_varDecls hnamed hword hy hr₁

/-! ## Statements -/

theorem Yields.tokens_finish {start : Position} {build : StmtInfo → Stmt} {s : Stmt}
    (h : (Grammar.finish start build).Yields p s q) : (∃ info, s = build info) ∧ q.tokens = p.tokens := by
  unfold Grammar.finish at h
  simp only [yields_bind, yields_spanFrom] at h
  obtain ⟨_, _, ⟨rfl, rfl⟩, hnew⟩ := h
  cases hnew
  exact ⟨⟨_, rfl⟩, rfl⟩

theorem Yields.legible_finish {start : Position} {build : StmtInfo → Stmt} {s : Stmt}
    (h : (Grammar.finish start build).Yields p s q) (hp : p.Legible) : (∃ info, s = build info) ∧ q.Legible := by
  obtain ⟨hbuild, htokens⟩ := Yields.tokens_finish h
  exact ⟨hbuild, hp.of_tokens htokens⟩

theorem ensures_blockWith {stmt : Parse Stmt} (h : Ensures stmt Stmt.Written) :
    Ensures (blockWith .standard stmt) fun b => b.toStmt.Written := by
  intro p b q hy hp
  unfold blockWith at hy
  simp only [yields_bind, yields_pure] at hy
  obtain ⟨t, r, ht, decls, r₁, hdecls, stmts, r₂, hstmts, t', r₃, ht', s, r₄, hs, rfl, rfl⟩ := hy
  obtain ⟨hwritten, hr₁⟩ := ensures_localDecls.many hdecls (ht.legible_expect hp)
  obtain ⟨hwritten', hr₂⟩ := h.many hstmts hr₁
  obtain ⟨-, hq⟩ := Yields.legible_finish hs (ht'.legible_expect hr₂)
  refine ⟨.compound (fun d hd => ?_) hwritten', hq⟩
  obtain ⟨ds, hds, hd⟩ := List.mem_flatten.1 hd
  exact hwritten ds hds d hd

theorem ensures_condition : Ensures (condition .standard) Expr.Written := by
  intro p e q hy hp
  unfold condition at hy
  simp only [yields_bind, yields_pure] at hy
  obtain ⟨t, r, ht, e, r₁, he, t', r₂, ht', rfl, rfl⟩ := hy
  obtain ⟨hwritten, hr₁⟩ := ensures_expression .lowest he (ht.legible_expect hp)
  exact ⟨hwritten, ht'.legible_expect hr₁⟩

theorem ensures_optionalExpr {terminator : TokenKind} :
    Ensures (optionalExpr .standard terminator) fun o => ∀ e ∈ o, e.Written := by
  intro p o q hy hp
  unfold optionalExpr at hy
  simp only [yields_bind, yields_ite_bind, yields_kind, yields_pure] at hy
  obtain ⟨_, _, ⟨rfl, rfl⟩, o, r, ho, t, r₁, ht, rfl, rfl⟩ := hy
  split_ifs at ho
  · obtain ⟨rfl, rfl⟩ := yields_pure.1 ho
    exact ⟨by simp, ht.legible_expect hp⟩
  · obtain ⟨e, he, rfl⟩ := yields_map.1 ho
    obtain ⟨hwritten, hr⟩ := ensures_expression .lowest he hp
    exact ⟨by simpa using hwritten, ht.legible_expect hr⟩

/-- No `else` follows an open statement. -/
def Closes (m : Parse Stmt) : Prop :=
  ∀ ⦃p s q⦄, m.Yields p s q → s.isOpen = true → q.current.kind ≠ .kwElse

theorem Yields.current_finish {start : Position} {build : StmtInfo → Stmt} {s : Stmt}
    (h : (Grammar.finish start build).Yields p s q) : (∃ info, s = build info) ∧ q.current = p.current := by
  obtain ⟨hbuild, htokens⟩ := Yields.tokens_finish h
  exact ⟨hbuild, (List.cons.inj htokens).1⟩

/-- An `if` takes the `else` behind its branch; every other form ends as its last part does. -/
theorem closes_statementForm {stmt : Parse Stmt} (h : Closes stmt) (form : StmtForm) :
    Closes (statementForm .standard stmt form) := by
  intro p s q hy hopen
  cases form with
  | block =>
    simp only [statementForm, yields_map] at hy
    obtain ⟨b, -, rfl⟩ := hy
    cases hopen
  | ifForm =>
    simp only [statementForm, yields_bind, yields_kind] at hy
    obtain ⟨_, _, -, _, _, -, _, _, -, _, _, ⟨rfl, rfl⟩, hy⟩ := hy
    split_ifs at hy with helse
    · simp only [yields_bind] at hy
      obtain ⟨_, _, -, elseBranch, r, hbranch, hfinish⟩ := hy
      obtain ⟨⟨info, rfl⟩, hcurrent⟩ := Yields.current_finish hfinish
      rw [hcurrent]
      exact h hbranch hopen
    · obtain ⟨-, hcurrent⟩ := Yields.current_finish hy
      rwa [hcurrent]
  | whileForm =>
    simp only [statementForm, yields_bind] at hy
    obtain ⟨_, _, -, _, _, -, body, r, hbody, hfinish⟩ := hy
    obtain ⟨⟨info, rfl⟩, hcurrent⟩ := Yields.current_finish hfinish
    rw [hcurrent]
    exact h hbody hopen
  | forForm =>
    simp only [statementForm, yields_bind] at hy
    obtain ⟨_, _, -, _, _, -, _, _, -, _, _, -, _, _, -, body, r, hbody, hfinish⟩ := hy
    obtain ⟨⟨info, rfl⟩, hcurrent⟩ := Yields.current_finish hfinish
    rw [hcurrent]
    exact h hbody hopen
  | breakForm | continueForm | returnForm =>
    simp only [statementForm, yields_bind] at hy
    obtain ⟨_, _, -, _, _, -, hfinish⟩ := hy
    obtain ⟨⟨info, rfl⟩, -⟩ := Yields.current_finish hfinish
    cases hopen
  | emptyForm =>
    simp only [statementForm, yields_bind] at hy
    obtain ⟨_, _, -, hfinish⟩ := hy
    obtain ⟨⟨info, rfl⟩, -⟩ := Yields.current_finish hfinish
    cases hopen

theorem closes_statementUpTo (n : Nat) : Closes (statementUpTo .standard n) := by
  induction n with
  | zero =>
    intro p s q hy
    exact absurd hy not_yields_illegalPrimary
  | succ n ih =>
    intro p s q hy
    simp only [statementUpTo, yields_bind, yields_kind] at hy
    obtain ⟨_, _, ⟨rfl, rfl⟩, hy⟩ := hy
    split at hy
    · exact closes_statementForm ih _ hy
    · unfold exprStatement at hy
      simp only [yields_bind] at hy
      obtain ⟨_, _, -, e, r, -, t, r₁, -, hfinish⟩ := hy
      obtain ⟨⟨info, rfl⟩, -⟩ := Yields.current_finish hfinish
      rintro ⟨⟩

theorem ensures_ifForm {stmt : Parse Stmt} (h : Ensures stmt Stmt.Written) (hcloses : Closes stmt) :
    Ensures (statementForm .standard stmt .ifForm) Stmt.Written := by
  intro p s q hy hp
  simp only [statementForm, yields_bind, yields_kind] at hy
  obtain ⟨t, r, ht, cond, r₁, hcond, thenBranch, r₂, hthen, _, _, ⟨rfl, rfl⟩, hy⟩ := hy
  obtain ⟨hwritten, hr₁⟩ := ensures_condition hcond (ht.legible_advance hp).2
  obtain ⟨hwritten', hr₂⟩ := h hthen hr₁
  split_ifs at hy with helse
  · simp only [yields_bind] at hy
    obtain ⟨t', r₃, ht', elseBranch, r₄, hbranch, hfinish⟩ := hy
    obtain ⟨hwritten'', hr₄⟩ := h hbranch (ht'.legible_advance hr₂).2
    obtain ⟨⟨info, rfl⟩, hq⟩ := Yields.legible_finish hfinish hr₄
    -- an open branch would have taken this `else`
    have hclosed : thenBranch.isOpen = false := Bool.eq_false_iff.2 fun hopen => hcloses hthen hopen helse
    exact ⟨.ifElse hwritten hwritten' hclosed hwritten'', hq⟩
  · obtain ⟨⟨info, rfl⟩, hq⟩ := Yields.legible_finish hy hr₂
    exact ⟨.ifThen hwritten hwritten', hq⟩

theorem ensures_forForm {stmt : Parse Stmt} (h : Ensures stmt Stmt.Written) :
    Ensures (statementForm .standard stmt .forForm) Stmt.Written := by
  intro p s q hy hp
  simp only [statementForm, yields_bind] at hy
  obtain ⟨t, r, ht, t', r', ht', init, r₁, hinit, cond, r₂, hcond, update, r₃, hupdate, body, r₄, hbody,
    hfinish⟩ := hy
  obtain ⟨hwritteni, hr₁⟩ := ensures_optionalExpr hinit (ht'.legible_expect (ht.legible_advance hp).2)
  obtain ⟨hwrittenc, hr₂⟩ := ensures_optionalExpr hcond hr₁
  obtain ⟨hwrittenu, hr₃⟩ := ensures_optionalExpr hupdate hr₂
  obtain ⟨hwritten, hr₄⟩ := h hbody hr₃
  obtain ⟨⟨info, rfl⟩, hq⟩ := Yields.legible_finish hfinish hr₄
  exact ⟨.forStmt hwritteni hwrittenc hwrittenu hwritten, hq⟩

theorem ensures_statementForm {stmt : Parse Stmt} (h : Ensures stmt Stmt.Written) (hcloses : Closes stmt)
    (form : StmtForm) : Ensures (statementForm .standard stmt form) Stmt.Written := by
  intro p s q hy hp
  cases form with
  | block =>
    simp only [statementForm, yields_map] at hy
    obtain ⟨b, hb, rfl⟩ := hy
    exact ensures_blockWith h hb hp
  | ifForm => exact ensures_ifForm h hcloses hy hp
  | forForm => exact ensures_forForm h hy hp
  | whileForm =>
    simp only [statementForm, yields_bind] at hy
    obtain ⟨t, r, ht, cond, r₁, hcond, body, r₂, hbody, hfinish⟩ := hy
    obtain ⟨hwritten, hr₁⟩ := ensures_condition hcond (ht.legible_advance hp).2
    obtain ⟨hwritten', hr₂⟩ := h hbody hr₁
    obtain ⟨⟨info, rfl⟩, hq⟩ := Yields.legible_finish hfinish hr₂
    exact ⟨.whileStmt hwritten hwritten', hq⟩
  | breakForm =>
    simp only [statementForm, yields_bind] at hy
    obtain ⟨t, r, ht, t', r', ht', hfinish⟩ := hy
    have hr' := ht'.legible_expect (ht.legible_advance hp).2
    obtain ⟨⟨info, rfl⟩, hq⟩ := Yields.legible_finish hfinish hr'
    exact ⟨.breakStmt, hq⟩
  | continueForm =>
    simp only [statementForm, yields_bind] at hy
    obtain ⟨t, r, ht, t', r', ht', hfinish⟩ := hy
    have hr' := ht'.legible_expect (ht.legible_advance hp).2
    obtain ⟨⟨info, rfl⟩, hq⟩ := Yields.legible_finish hfinish hr'
    exact ⟨.continueStmt, hq⟩
  | returnForm =>
    simp only [statementForm, yields_bind] at hy
    obtain ⟨t, r, ht, value, r₁, hvalue, hfinish⟩ := hy
    obtain ⟨hwritten, hr₁⟩ := ensures_optionalExpr hvalue (ht.legible_advance hp).2
    obtain ⟨⟨info, rfl⟩, hq⟩ := Yields.legible_finish hfinish hr₁
    exact ⟨.returnStmt hwritten, hq⟩
  | emptyForm =>
    simp only [statementForm, yields_bind] at hy
    obtain ⟨t, r, ht, hfinish⟩ := hy
    obtain ⟨⟨info, rfl⟩, hq⟩ := Yields.legible_finish hfinish (ht.legible_advance hp).2
    exact ⟨.emptyStmt, hq⟩

theorem ensures_statementUpTo (n : Nat) : Ensures (statementUpTo .standard n) Stmt.Written := by
  induction n with
  | zero =>
    intro p s q hy
    exact absurd hy not_yields_illegalPrimary
  | succ n ih =>
    intro p s q hy hp
    simp only [statementUpTo, yields_bind, yields_kind] at hy
    obtain ⟨_, _, ⟨rfl, rfl⟩, hy⟩ := hy
    split at hy
    · exact ensures_statementForm ih (closes_statementUpTo n) _ hy hp
    · unfold exprStatement at hy
      simp only [yields_bind, yields_start] at hy
      obtain ⟨_, _, ⟨rfl, rfl⟩, e, r, he, t, r₁, ht, hfinish⟩ := hy
      obtain ⟨hwritten, hr⟩ := ensures_expression .lowest he hp
      obtain ⟨⟨info, rfl⟩, hq⟩ := Yields.legible_finish hfinish (ht.legible_expect hr)
      exact ⟨.exprStmt hwritten, hq⟩

theorem ensures_statement : Ensures (statement .standard) Stmt.Written := fun _ _ _ hy => ensures_statementUpTo _ hy

/-! ## Programs -/

theorem ensures_function {start : Position} {ty : Ty} {ident : Ident} (hty : ty.Named) (hident : ident.word.Legible) :
    Ensures (function .standard start ty ident) Function.Written := by
  intro p f q hy hp
  unfold function block at hy
  simp only [yields_bind, yields_spanFrom, yields_pure] at hy
  obtain ⟨params, r, hparams, body, r₁, hbody, _, _, ⟨rfl, rfl⟩, id, r₂, hnew, rfl, rfl⟩ := hy
  obtain ⟨hwritten, hr⟩ := ensures_param.parenthesised hparams hp
  obtain ⟨hwritten', hr₁⟩ := ensures_blockWith ensures_statement hbody hr
  exact ⟨⟨hident, hty, hwritten, hwritten'⟩, hnew.legible_newDecl hr₁⟩

theorem ensures_topLevel : Ensures (topLevel .standard) fun ds => ∀ d ∈ ds, d.Written := by
  intro p ds q hy hp
  unfold topLevel at hy
  simp only [yields_bind, yields_start, yields_kind] at hy
  obtain ⟨_, _, ⟨rfl, rfl⟩, ty, r, hty, ident, r₁, hident, _, _, ⟨rfl, rfl⟩, hy⟩ := hy
  obtain ⟨hnamed, hr⟩ := ensures_typeName hty hp
  obtain ⟨hword, hr₁⟩ := hident.legible_expectIdent hr
  split_ifs at hy
  · simp only [yields_bind, yields_pure] at hy
    obtain ⟨f, r₂, hf, rfl, rfl⟩ := hy
    obtain ⟨hwritten, hq⟩ := ensures_function hnamed hword hf hr₁
    exact ⟨by simpa using TopDecl.Written.func hwritten, hq⟩
  · simp only [yields_bind, yields_pure] at hy
    obtain ⟨decls, r₂, hdecls, rfl, rfl⟩ := hy
    obtain ⟨hwritten, hq⟩ := ensures_varDecls hnamed hword hdecls hr₁
    refine ⟨fun d hd => ?_, hq⟩
    obtain ⟨decl, hdecl, rfl⟩ := List.mem_map.1 hd
    obtain ⟨hdecl, hglobal⟩ := hwritten decl hdecl
    exact .var hdecl hglobal

theorem ensures_program : Ensures (program .standard) fun prog => ∀ d ∈ prog.decls, d.Written := by
  intro p prog q hy hp
  unfold program at hy
  simp only [yields_bind, yields_start, yields_current, yields_pure] at hy
  obtain ⟨_, _, ⟨rfl, rfl⟩, decls, _, hdecls, _, r, ⟨rfl, rfl⟩, rfl, rfl⟩ := hy
  obtain ⟨hwritten, hq⟩ := ensures_topLevel.many hdecls hp
  refine ⟨fun d hd => ?_, hq⟩
  obtain ⟨ds, hds, hd⟩ := List.mem_flatten.1 hd
  exact hwritten ds hds d hd

end Grammar

theorem Parser.legible_ofString (source : String) : (Parser.ofString source).Legible := by
  intro t ht
  rw [tokens_ofString] at ht
  obtain ⟨l, hl, rfl⟩ := List.mem_map.1 ht
  exact lexemes_legible source l hl

/-- What a parse builds can be printed. -/
theorem parse_written {source : String} {p : Program} (h : (parse source).result = .ok p) :
    ∀ d ∈ p.decls, d.Written := by
  have hy : (Grammar.program .standard).Yields (.ofString source) p
      (Grammar.program .standard (.ofString source)).2 := Prod.ext h rfl
  exact (Grammar.ensures_program hy (Parser.legible_ofString source)).1

end VCLang
