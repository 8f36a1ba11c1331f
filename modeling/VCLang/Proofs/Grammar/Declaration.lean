/-
Types, declarators and declarations read their rules.
-/
import VCLang.Grammar.Declaration
import VCLang.Proofs.Grammar.Expression
namespace VCLang.Reads

open Dispatch

variable {F : Language Token → Prop} {n : Nat} {p : Parser}

theorem typeName (hp : p.Ready n) : Reads F (.rule .type) p (Grammar.typeName p) := by
  rw [Grammar.typeName, Parse.kind_bind]
  have hsome := Grammar.baseType?_isSome p.current.kind
  rcases ht : Grammar.baseType? p.current.kind with _ | t
  · rw [ht] at hsome
    exact fail fun K ts _ => Pattern.not_mem_mul hsome.symm rfl
  · have hk : p.current.kind ∈ [.kwVoid, .kwBoolean, .kwInt, .kwFloat] := by
      cases hk : p.current.kind <;> rw [hk] at ht <;> cases ht <;> decide
    exact rule ((advanceOneOf hp hk (by decide)).andSilent fun _ q => ⟨_, _, rfl, rfl⟩)

/-- A size is read if it is written; a numeral that is too large is no size. -/
theorem arraySize (hp : p.Ready n) : Reads (Follow (· = .rBracket)) (.opt .size) p (Grammar.arraySize p) := by
  rw [Grammar.arraySize, Parse.kind_bind]
  split_ifs with hk
  · rw [Parse.current_bind]
    have hfollow (K : Language Token) (ts : List Token) (hK : Follow (· = .rBracket) K) : p.current :: ts ∉ K :=
      hK.not_mem (by rw [hk]; rfl)
    rcases hb : boundedDecimal? Grammar.maxArraySize p.current.spelling.toList with _ | m
    · refine fail fun K ts hK hv => ?_
      rw [Pattern.lang_opt, add_mul, one_mul, Language.mem_add] at hv
      obtain ⟨u, hu, v, -, huv⟩ := Language.mem_mul.1 (hv.resolve_right (hfollow K ts hK))
      obtain ⟨t, -, hle, rfl⟩ := Pattern.mem_size.1 hu
      cases huv
      obtain ⟨hne, hd⟩ := hp.numerals p.current List.mem_cons_self hk
      have hsome := (@boundedDecimal?_eq_some_iff Grammar.maxArraySize _ _).2 ⟨hne, hd, rfl, hle⟩
      rw [hb] at hsome
      cases hsome
    · obtain ⟨-, -, rfl, hle⟩ := boundedDecimal?_eq_some_iff.1 hb
      let fits (t : Token) : Prop := t.kind = .intLiteral ∧ decimalValue t.spelling.toList ≤ Grammar.maxArraySize
      have hsize (w : List Token) : w ∈ Pattern.size.lang ↔ ∃ t, fits t ∧ w = [t] := by
        rw [Pattern.mem_size]
        simp only [fits, and_assoc, Grammar.maxArraySize]
      have hne : p.current.kind ≠ .eof := by rw [hk]; decide
      exact opt ((advanceSingle hsize hp ⟨hk, hle⟩ hne).andSilent fun _ q => ⟨_, _, rfl, rfl⟩) hfollow
  · exact nothing (fun q => ⟨_, _, rfl, rfl⟩) rfl (by simp [Pattern.opt, Pattern.first, hk])

theorem declaratorSuffix (hp : p.Ready n) (base : Ty) :
    Reads (Follow (· ≠ .lBracket)) (.opt (.rule .declaratorSuffix)) p (Grammar.declaratorSuffix base p) := by
  change Reads _ _ p ((if p.current.kind = .lBracket then
    Parse.advance >>= fun _ => Grammar.arraySize >>= fun size => Parse.expect .rBracket >>= fun _ =>
      pure (.array base size)
    else pure base : Parse Ty) p)
  split_ifs with hk
  · refine opt (rule ?_) fun K ts hK => hK.not_mem (by rw [hk]; rfl)
    refine (advance (F := fun _ => True) hp hk (by decide)).andThen hp (fun _ q hq => ?_) fun _ _ => trivial
    refine (arraySize hq).andThen hq (fun size r hr => ?_) fun K _ => Follow.nonempty (fun k hk => hk) rfl
    exact (expect hr (by decide)).andSilent fun _ s => ⟨_, _, rfl, rfl⟩
  · exact nothing (fun q => ⟨_, _, rfl, rfl⟩) rfl (by simp [Pattern.opt, Pattern.first, Rule.first, hk])

/-- The tokens behind a declared variable. -/
def endsDeclarator (k : TokenKind) : Bool := k = .comma || k = .semicolon

theorem endsLevel_of_endsDeclarator {k : TokenKind} (h : endsDeclarator k = true) : endsLevel 1 k = true := by
  cases k <;> first
    | rfl
    | cases h

theorem initialiser (hp : p.Ready n) :
    Reads (Follow (endsLevel 1)) (.rule .initialiser) p (Grammar.initialiser standard p) := by
  change Reads _ _ p ((if p.current.kind = .lCurly then
    Parse.advance >>= fun t => Parse.commaList (Grammar.expression standard .lowest) >>= fun elements =>
      Parse.expect .rCurly >>= fun _ => Parse.spanFrom t.span.start >>= Parse.newExpr (.initList · elements)
    else Grammar.expression standard .lowest : Parse Expr) p)
  split_ifs with hk
  · refine rule (alt_right ?_ fun K ts _ => Pattern.not_mem_mul (by rw [hk]; rfl) rfl)
    refine (advance (F := fun _ => True) hp hk (by decide)).andThen hp (fun t q hq => ?_) fun _ _ => trivial
    refine (commaList (F := Follow (· = .rCurly)) (fun p hp => expression hp) (fun K hK => ?_) (fun K hK => ?_)
      hq).andThen hq (fun elements r hr => ?_) fun K _ => Follow.nonempty (fun k hk => hk) rfl
    · refine Follow.mul (fun k hk => ?_) fun _ => hK.mono fun k hk => ?_
      · have hc : k = .comma := by simpa [Pattern.first, Pattern.nullable] using hk
        rw [hc]
        rfl
      · rw [of_decide_eq_true hk]
        rfl
    · exact hK.mono fun k hk => by rw [of_decide_eq_true hk]; rfl
    · exact (expect hr (by decide)).andSilent fun _ s => ⟨_, _, rfl, rfl⟩
  · exact rule (alt_left (expression hp) fun K ts _ =>
      Pattern.not_mem_mul (by simp [Pattern.first, hk, Pattern.nullable]) rfl)

/-- The rest of a declared variable behind its name. -/
theorem initDeclarator (hp : p.Ready n) (start : Position) (base : Ty) (ident : Ident) (isGlobal : Bool) :
    Reads (Follow endsDeclarator) (.seq (.opt (.rule .declaratorSuffix)) .initialised) p
      (Grammar.initDeclarator standard start base ident isGlobal p) := by
  refine (declaratorSuffix hp base).andThen hp (fun ty q hq => ?_) fun K hK => ?_
  · let finish (init : Option Expr) : Parse VarDecl := Parse.spanFrom start >>= fun span =>
      Parse.newDecl (VarDecl.kind ⟨⟨0⟩, ident, ty, span, isGlobal, init⟩) ident ty span >>= fun id =>
        pure ⟨id, ident, ty, span, isGlobal, init⟩
    change Reads _ _ q ((if q.current.kind = .eq then
      (Parse.advance >>= fun _ => some <$> Grammar.initialiser standard) >>= finish
      else pure none >>= finish) q)
    rw [Parse.ite_bind]
    refine andSilent ?_ fun init r => ⟨_, _, rfl, rfl⟩
    split_ifs with hk
    · refine opt ?_ fun K ts hK => hK.not_mem (by rw [hk]; rfl)
      refine (advance (F := fun _ => True) hq hk (by decide)).andThen hq (fun _ r hr => ?_) fun _ _ => trivial
      refine ((initialiser hr).weaken fun K hK => ?_).andSilent fun e s => ⟨_, _, rfl, rfl⟩
      exact hK.mono fun k => endsLevel_of_endsDeclarator
    · exact nothing (fun r => ⟨_, _, rfl, rfl⟩) rfl (by
        simp [Pattern.initialised, Pattern.opt, Pattern.first, Pattern.nullable, hk])
  · refine Follow.mul (fun k hk => ?_) fun _ => hK.mono fun k hk => ?_
    · have hc : k = .eq := by simpa [Pattern.initialised, Pattern.opt, Pattern.first, Pattern.nullable] using hk
      rw [hc]
      rfl
    · cases k <;> first
        | rfl
        | cases hk

/-- The rest of a list of variables behind the first name. -/
theorem varDecls (hp : p.Ready n) (start : Position) (base : Ty) (first : Ident) (isGlobal : Bool) :
    Reads F (.rule .varRest) p (Grammar.varDecls standard start base first isGlobal p) := by
  have hnext (q : Parser) (hq : q.Ready n) (hk : decide (q.current.kind = .comma) = true) :
      Reads (Follow endsDeclarator) (.seq (.kind .comma) (.rule .initDeclarator)) q
        ((Parse.advance >>= fun _ => Parse.start >>= fun start => Parse.expectIdent >>= fun ident =>
          Grammar.initDeclarator standard start base ident isGlobal) q) := by
    refine (advance (F := fun _ => True) hq (of_decide_eq_true hk) (by decide)).andThen hq (fun _ r hr => ?_)
      fun _ _ => trivial
    refine silentThen (fun s => ⟨_, _, rfl, rfl⟩) fun start s hs => rule ?_
    have hs := hr.of_tokens hs
    exact (expectIdent (F := fun _ => True) hs).andThen hs (fun ident u hu => initDeclarator hu _ _ _ _)
      fun _ _ => trivial
  refine rule (Reads.congr (a := .seq (.seq (.opt (.rule .declaratorSuffix)) .initialised)
    (.seq (.many (.seq (.kind .comma) (.rule .initDeclarator))) (.kind .semicolon))) ?_ ?_)
  · refine (initDeclarator hp start base first isGlobal).andThen hp (fun decl q hq => ?_) fun K _ => ?_
    · refine (many (F := Follow (· = .semicolon)) hnext rfl (fun k hk => ?_) (fun K hK => ?_) (fun K hK => ?_)
        hq).andThen hq (fun decls r hr => ?_) fun K _ => Follow.nonempty (fun k hk => hk) rfl
      · simpa [Pattern.first, Pattern.nullable] using hk
      · refine Follow.mul (fun k hk => ?_) fun _ => hK.mono fun k hk => ?_
        · have hc : k = .comma := by simpa [Pattern.first, Pattern.nullable] using hk
          rw [hc]
          rfl
        · rw [of_decide_eq_true hk]
          rfl
      · exact hK.mono fun k hk => by rw [of_decide_eq_true hk]; rfl
      · exact (expect hr (by decide)).andSilent fun _ s => ⟨_, _, rfl, rfl⟩
    · refine Follow.nonempty (fun k hk => ?_) rfl
      cases k <;> first
        | rfl
        | cases hk
  · simp only [Rule.body, Pattern.lang_seq, mul_assoc]

theorem param (hp : p.Ready n) : Reads (Follow (· ≠ .lBracket)) (.rule .paraDecl) p (Grammar.param p) := by
  refine silentThen (fun s => ⟨_, _, rfl, rfl⟩) fun start q hq => rule ?_
  have hq := hp.of_tokens hq
  refine (typeName (F := fun _ => True) hq).andThen hq (fun base r hr => ?_) fun _ _ => trivial
  refine (expectIdent (F := fun _ => True) hr).andThen hr (fun ident s hs => ?_) fun _ _ => trivial
  exact (declaratorSuffix hs base).andSilent fun ty u => ⟨_, _, rfl, rfl⟩

end VCLang.Reads
