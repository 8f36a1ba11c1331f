/-
Two parses in step. Two parsers that have the same words before them, whatever stands between these, go the same way:
their steps fail with the same fault at the same word, or give the same trees apart from places. A step looks at the
kind and the spelling of a token and nowhere else, and the number of a node is the number of those before it.
-/
import VCLang.Grammar.Program
import VCLang.Proofs.Printing.Reading
import VCLang.Proofs.Tree.Relabel
namespace VCLang

variable {α β γ δ : Type}

/-- Two parsers have the same words before them and as many nodes behind them. -/
structure Parser.Alike (p p' : Parser) : Prop where
  words : p.words = p'.words
  arena : p.arena.SameSize p'.arena

namespace Parser.Alike

variable {p p' : Parser}

theorem word (h : p.Alike p') : p.current.word = p'.current.word := (List.cons.inj h.words).1

theorem kind (h : p.Alike p') : p.current.kind = p'.current.kind := congrArg Word.kind h.word

theorem spelling (h : p.Alike p') : p.current.spelling = p'.current.spelling := congrArg Word.spelling h.word

theorem remaining (h : p.Alike p') : p.remaining = p'.remaining := by
  have hlength := congrArg List.length h.words
  rw [length_words, length_words] at hlength
  exact Nat.succ.inj hlength

theorem advance (h : p.Alike p') : p.advance.Alike p'.advance := by
  have htail : (p.upcoming.map Lexeme.token).map Token.word = (p'.upcoming.map Lexeme.token).map Token.word :=
    (List.cons.inj h.words).2
  have hword := h.word
  have harena := h.arena
  unfold Parser.advance
  rcases hp : p.upcoming with _ | ⟨l, ls⟩ <;> rcases hp' : p'.upcoming with _ | ⟨l', ls'⟩ <;> rw [hp, hp'] at htail
  · exact ⟨congrArg (· :: []) hword, harena⟩
  · cases htail
  · cases htail
  · exact ⟨htail, harena⟩

end Parser.Alike

namespace Parse

/-- Outcomes that are the same, apart from what `f` forgets of results: both of success, or errors of one fault, each at
the token its parser looks at. -/
inductive AlikeOutcomes (f : α → β) : Except Error α × Parser → Except Error α × Parser → Prop
  | ok {a a' : α} {q q' : Parser} : f a = f a' → q.Alike q' → AlikeOutcomes f (.ok a, q) (.ok a', q')
  | error {fault : Fault} {q q' : Parser} : q.Alike q' →
    AlikeOutcomes f (.error (q.errorHere fault), q) (.error (q'.errorHere fault), q')

/-- Two steps go the same way. -/
def Alike (f : α → β) (m m' : Parse α) : Prop := ∀ p p', p.Alike p' → AlikeOutcomes f (m p) (m' p')

variable {f : α → β} {g : γ → δ} {m m' : Parse α}

theorem alike_pure {a a' : α} (h : f a = f a') : Alike f (pure a) (pure a') := fun _ _ hp => .ok h hp

theorem Alike.bind {k k' : α → Parse γ} (hm : Alike f m m') (hk : ∀ a a', f a = f a' → Alike g (k a) (k' a')) :
    Alike g (m >>= k) (m' >>= k') := by
  intro p p' hp
  have houtcome := hm p p' hp
  rw [bind_apply, bind_apply]
  generalize m p = outcome at houtcome ⊢
  generalize m' p' = outcome' at houtcome ⊢
  cases houtcome with
  | ok ha hq => exact hk _ _ ha _ _ hq
  | error hq => exact .error hq

theorem Alike.map {k k' : α → γ} (hm : Alike f m m') (hk : ∀ a a', f a = f a' → g (k a) = g (k' a')) :
    Alike g (k <$> m) (k' <$> m') :=
  hm.bind fun a a' h => alike_pure (hk a a' h)

theorem Alike.ite {c : Prop} [Decidable c] {n n' : Parse α} (hm : Alike f m m') (hn : Alike f n n') :
    Alike f (if c then m else n) (if c then m' else n') := by
  split_ifs
  · exact hm
  · exact hn

/-! ## Single steps -/

/-- What a step depends on of a kind of token is the same for both parsers. -/
theorem Alike.kind_bind {k k' : TokenKind → Parse γ} (h : ∀ t, Alike g (k t) (k' t)) :
    Alike g (kind >>= k) (kind >>= k') := by
  intro p p' hp
  have hk := h p.current.kind p p' hp
  have hkind : (kind >>= k') p' = k' p.current.kind p' := by
    rw [hp.kind]
    rfl
  rw [hkind]
  exact hk

/-- How many tokens are left is the same for both parsers. -/
theorem Alike.remaining {step step' : Nat → Parse α} (h : ∀ n, Alike f (step n) (step' n)) :
    Alike f (fun p => step p.remaining p) (fun p => step' p.remaining p) := by
  intro p p' hp
  dsimp only
  rw [← hp.remaining]
  exact h p.remaining p p' hp

theorem alike_current : Alike Token.word current current := fun _ _ hp => .ok hp.word hp

theorem alike_start : Alike (fun _ => ()) start start := fun _ _ hp => .ok rfl hp

theorem alike_spanFrom (s s' : Position) : Alike (fun _ => ()) (spanFrom s) (spanFrom s') := fun _ _ hp => .ok rfl hp

theorem alike_advance : Alike Token.word advance advance := fun _ _ hp => .ok hp.word hp.advance

theorem alike_fail (fault : Fault) : Alike f (fail fault) (fail fault) := by
  intro p p' hp
  exact @AlikeOutcomes.error _ _ f fault { p with errors := p.errors ++ [p.errorHere fault] }
    { p' with errors := p'.errors ++ [p'.errorHere fault] } ⟨hp.words, hp.arena⟩

theorem alike_illegalPrimary : Alike f illegalPrimary illegalPrimary := by
  intro p p' hp
  have hfail := alike_fail (f := f) (.illegalPrimaryExpression p.current.spelling) p p' hp
  have hspelling : (illegalPrimary : Parse α) p' = fail (.illegalPrimaryExpression p.current.spelling) p' := by
    rw [hp.spelling]
    rfl
  rw [hspelling]
  exact hfail

theorem alike_expect (k : TokenKind) : Alike Token.word (expect k) (expect k) :=
  .kind_bind fun _ => .ite alike_advance (alike_fail _)

theorem alike_expectIdent : Alike (Ident.relabel .placeless) expectIdent expectIdent := by
  refine .kind_bind fun _ => .ite (alike_advance.bind fun t t' ht => alike_pure ?_) (alike_fail _)
  exact congrArg (fun w : Word => Ident.unbound w.spelling default) ht

/-! ## New nodes -/

theorem alike_newExpr {build build' : ExprInfo → Expr} (span span' : Span)
    (h : ∀ i i', i.relabel .placeless = i'.relabel .placeless →
      (build i).relabel .placeless = (build' i').relabel .placeless) :
    Alike (Expr.relabel .placeless) (newExpr build span) (newExpr build' span') := by
  intro p p' hp
  have hinfo : (⟨⟨p.arena.exprs.size⟩, span, none⟩ : ExprInfo).relabel .placeless =
      (⟨⟨p'.arena.exprs.size⟩, span', none⟩ : ExprInfo).relabel .placeless := by
    rw [hp.arena.exprs]
    rfl
  have hsize (node node' : ExprNode) :=
    @Arena.SameSize.pushEntry _ _ (.expr ⟨0⟩ node) (.expr ⟨0⟩ node') hp.arena rfl
  exact .ok (h _ _ hinfo) ⟨hp.words, hsize ⟨_, span, none, none⟩ ⟨_, span', none, none⟩⟩

theorem alike_newStmt {build build' : StmtInfo → Stmt} (span span' : Span)
    (h : ∀ i i', i.relabel .placeless = i'.relabel .placeless →
      (build i).relabel .placeless = (build' i').relabel .placeless) :
    Alike (Stmt.relabel .placeless) (newStmt build span) (newStmt build' span') := by
  intro p p' hp
  have hinfo : (⟨⟨p.arena.stmts.size⟩, span⟩ : StmtInfo).relabel .placeless =
      (⟨⟨p'.arena.stmts.size⟩, span'⟩ : StmtInfo).relabel .placeless := by
    rw [hp.arena.stmts]
    rfl
  have hsize (node node' : StmtNode) :=
    @Arena.SameSize.pushEntry _ _ (.stmt ⟨0⟩ node) (.stmt ⟨0⟩ node') hp.arena rfl
  exact .ok (h _ _ hinfo) ⟨hp.words, hsize ⟨_, span, none⟩ ⟨_, span', none⟩⟩

theorem alike_newDecl (kind kind' : DeclKind) (ident ident' : Ident) (ty ty' : Ty) (span span' : Span) :
    Alike id (newDecl kind ident ty span) (newDecl kind' ident' ty' span') := by
  intro p p' hp
  have hsize (node node' : DeclNode) :=
    @Arena.SameSize.pushEntry _ _ (.decl ⟨0⟩ node) (.decl ⟨0⟩ node') hp.arena rfl
  refine .ok (congrArg DeclId.mk hp.arena.decls) ⟨hp.words, ?_⟩
  exact hsize ⟨kind, ident, ty, span, none⟩ ⟨kind', ident', ty', span', none⟩

/-! ## Repetitions -/

theorem Alike.manyUpTo {test : TokenKind → Bool} (h : Alike f m m') (n : Nat) :
    Alike (List.map f) (manyUpTo test m n) (manyUpTo test m' n) := by
  induction n with
  | zero => exact alike_pure rfl
  | succ n ih =>
    refine .kind_bind fun _ => .ite ?_ (alike_pure rfl)
    refine h.bind fun a a' ha => ih.bind fun as as' has => alike_pure ?_
    rw [List.map_cons, List.map_cons, ha, has]

theorem Alike.many {test : TokenKind → Bool} (h : Alike f m m') :
    Alike (List.map f) (many test m) (many test m') :=
  .remaining fun n => h.manyUpTo (n + 1)

theorem Alike.commaList (h : Alike f m m') : Alike (List.map f) (commaList m) (commaList m') := by
  refine h.bind fun a a' ha => ?_
  refine (Alike.many (alike_advance.bind fun _ _ _ => h)).bind fun as as' has => alike_pure ?_
  rw [List.map_cons, List.map_cons, ha, has]

theorem Alike.parenthesised (h : Alike f m m') : Alike (List.map f) (parenthesised m) (parenthesised m') := by
  have hclose (as as' : List α) (has : as.map f = as'.map f) :
      Alike (List.map f) (expect .rParen >>= fun _ => pure as) (expect .rParen >>= fun _ => pure as') :=
    (alike_expect _).bind fun _ _ _ => alike_pure has
  refine (alike_expect _).bind fun _ _ _ => .kind_bind fun _ => .ite ?_ ?_
  · exact (alike_pure (f := List.map f) (a := []) rfl).bind hclose
  · exact h.commaList.bind hclose

end Parse

end VCLang
