/-
Reading printed declarations: a type and its declarator are read as the type, and a variable that is declared by
itself, with its whole type and its initial value, is read as a list of this one variable.
-/
import VCLang.Grammar.Declaration
import VCLang.Proofs.Printing.Expression
namespace VCLang

/-! ## Written declarations -/

/-- The type of the elements of an array; any other type itself. -/
def Ty.base : Ty → Ty
  | array element _ => element
  | t => t

/-- A type that a word names. -/
def Ty.Named (t : Ty) : Prop := ∃ k, Grammar.baseType? k = some t

/-- A type that a declaration can spell. -/
structure Ty.Written (t : Ty) : Prop where
  base : t.base.Named
  size : ∀ n ∈ t.size?, n ≤ Grammar.maxArraySize

/-- An initial value that a declaration can spell. -/
inductive Expr.WrittenInit : Expr → Prop
  | expr {e : Expr} : e.Written → WrittenInit e
  | list {info : ExprInfo} {elements : List Expr} : elements ≠ [] → (∀ e ∈ elements, e.Written) →
    WrittenInit (.initList info elements)

/-- A variable that a declaration can spell. -/
structure VarDecl.Written (d : VarDecl) : Prop where
  ident : d.ident.word.Legible
  ty : d.ty.Written
  init : ∀ e ∈ d.init, e.WrittenInit

structure Param.Written (p : Param) : Prop where
  ident : p.ident.word.Legible
  ty : p.ty.Written

theorem Ty.Named.word_eq {t : Ty} {k : TokenKind} (h : Grammar.baseType? k = some t) : t.word = k.word := by
  cases k <;> cases h <;> rfl

theorem Ty.Named.isType {t : Ty} (h : t.Named) : t.word.kind.isType = true := by
  obtain ⟨k, hk⟩ := h
  rw [word_eq hk]
  show k.isType = true
  rw [← Grammar.baseType?_isSome, hk]
  rfl

theorem Ty.word_base (t : Ty) : t.base.word = t.word := by cases t <;> rfl

theorem Ty.Written.isType {t : Ty} (h : t.Written) : t.word.kind.isType = true := by
  rw [← t.word_base]
  exact h.base.isType

namespace Grammar

open Parse

variable {n : Nat} {S : TokenKind → Bool}

/-! ## Types and declarators -/

theorem takes_typeName {t : Ty} (h : t.Named) : Takes n typeName [t.word] S (· = t) := by
  obtain ⟨k, hk⟩ := h
  rw [Ty.Named.word_eq hk]
  unfold typeName
  refine Takes.kind_bind (T := (· = k)) (decide_eq_true rfl) fun k' hk' => ?_
  obtain rfl := of_decide_eq_true hk'
  rw [hk]
  exact Takes.advance_bind fun _ _ => Takes.pure rfl

theorem takes_arraySize {size : Option Nat} (h : ∀ n ∈ size, n ≤ maxArraySize) :
    Takes n arraySize (size.map sizeWord).toList (fun k => k ≠ .intLiteral) (· = size) := by
  unfold arraySize
  cases size with
  | none =>
    refine Takes.kind_follow fun k hk => ?_
    rw [if_neg (of_decide_eq_true hk)]
    exact Takes.pure rfl
  | some l =>
    refine Takes.kind_bind (T := (· = .intLiteral)) (decide_eq_true rfl) fun k hk => ?_
    rw [if_pos (of_decide_eq_true hk)]
    refine Takes.current_bind fun t ht => ?_
    have hsize : boundedDecimal? maxArraySize t.spelling.toList = some l := by
      have hspelling : t.spelling = String.ofList (Nat.toDigits 10 l) := congrArg Word.spelling ht
      obtain ⟨hne, hdigits, hvalue⟩ := toDigits_numeral l
      rw [hspelling, String.toList_ofList]
      exact boundedDecimal?_eq_some_iff.2 ⟨hne, hdigits, hvalue, h l rfl⟩
    rw [hsize]
    exact Takes.advance_bind fun _ _ => Takes.pure rfl

theorem takes_declaratorSuffix {t : Ty} (h : t.Written) :
    Takes n (declaratorSuffix t.base) t.suffix (fun k => k ≠ .lBracket) (· = t) := by
  unfold declaratorSuffix
  cases t with
  | array element size =>
    refine Takes.kind_bind (T := (· = .lBracket)) (decide_eq_true rfl) fun k hk => ?_
    rw [if_pos (of_decide_eq_true hk)]
    refine Takes.advance_bind fun _ _ => ?_
    refine Takes.bind (takes_arraySize h.size) (fun size' hsize => ?_) fun _ _ => rfl
    rw [hsize]
    exact Takes.expect_bind rfl fun _ _ => Takes.pure rfl
  | _ =>
    refine Takes.kind_follow fun k hk => ?_
    rw [if_neg (of_decide_eq_true hk)]
    exact Takes.pure rfl

/-- The rest of a declaration behind its type and its name. -/
theorem takes_declarator {α : Type} {f : Ty → Ident → Parse α} {t : Ty} {ident : Ident} {ws : List Word} {Q : α → Prop}
    (h : t.Written)
    (hf : ∀ ident', ident'.bare = ident.bare → Takes n (f t.base ident') (t.suffix ++ ws) S Q) :
    Takes n (do let base ← typeName; let ident ← expectIdent; f base ident) (declarator t ident ++ ws) S Q := by
  have hname := takes_typeName (n := n) (S := fun _ => true) h.base
  rw [t.word_base] at hname
  refine Takes.bind_head hname (fun base hbase => ?_) fun _ hrest => hrest.any
  rw [hbase]
  exact Takes.expectIdent_bind fun ident' hident =>
    (hf ident' hident).weaken (Nat.sub_le _ _) (fun _ hk => hk) fun _ ha => ha

/-! ## Variables -/

theorem takes_initialiser {e : Expr} (h : e.WrittenInit) :
    Takes n (initialiser .standard) e.words Power.lowest.stopsAt fun e' => e'.bare = e.bare := by
  unfold initialiser
  cases h with
  | expr he =>
    refine Takes.kind_bind he.begins fun k hk => ?_
    have hne : k ≠ .lCurly := by
      rintro rfl
      cases hk
    rw [if_neg hne]
    exact he.takes n
  | @list info elements hne helements =>
    obtain ⟨x, xs, rfl⟩ := List.exists_cons_of_ne_nil hne
    refine Takes.kind_bind (T := (· = .lCurly)) (decide_eq_true rfl) fun k hk => ?_
    rw [if_pos (of_decide_eq_true hk), Expr.words, Expr.wordsEach_eq]
    refine Takes.advance_bind fun _ _ => ?_
    have hlist : Takes (n - 1) (commaList (expression .standard .lowest)) (Word.separated ((x :: xs).map Expr.words))
        (· = .rCurly) fun es => es.map Expr.bare = (x :: xs).map Expr.bare := by
      refine Takes.commaList (fun y hy => ((helements y hy).takes _).before fun k hk => ?_) fun k hk => ?_
      · revert hk
        cases k <;> decide
      · revert hk
        cases k <;> decide
    refine Takes.bind hlist (fun elements' helements' => ?_) fun _ _ => rfl
    refine Takes.expect_bind rfl fun _ _ => ?_
    refine Takes.silent_bind (fun p => ⟨_, _, rfl, rfl⟩) fun _ => Takes.newExpr fun _ => ?_
    rw [Expr.bare, Expr.bare, Expr.bareAll_eq, Expr.bareAll_eq, helements']

theorem takes_initDeclarator {start : Position} {d : VarDecl} {ident : Ident} (h : d.Written)
    (hident : ident.bare = d.ident.bare) :
    Takes n (initDeclarator .standard start d.ty.base ident d.isGlobal) (d.ty.suffix ++ initWords d.init)
      (· = .semicolon) fun d' => d'.bare = d.bare := by
  unfold initDeclarator
  have hnode {init : Option Expr} (hinit : init.map Expr.bare = d.init.map Expr.bare) :
      Takes n (do
        let span ← spanFrom start
        let decl : VarDecl := ⟨⟨0⟩, ident, d.ty, span, d.isGlobal, init⟩
        let id ← newDecl decl.kind ident d.ty span
        return { decl with id }) [] (· = .semicolon) fun d' => d'.bare = d.bare := by
    refine Takes.silent_bind (fun p => ⟨_, _, rfl, rfl⟩) fun _ => ?_
    refine Takes.silent_bind (fun p => ⟨_, _, rfl, rfl⟩) fun _ => Takes.pure ?_
    rw [VarDecl.bare, VarDecl.bare, hident, hinit]
  refine Takes.bind (takes_declaratorSuffix h.ty) (fun ty hty => ?_) fun rest hrest => ?_
  · rw [hty]
    rcases hinit : d.init with _ | e
    · refine Takes.kind_follow fun k hk => ?_
      obtain rfl := of_decide_eq_true hk
      rw [if_neg (by decide)]
      exact Takes.pure_bind (hnode (by rw [hinit]))
    · refine Takes.kind_bind (T := (· = .eq)) (decide_eq_true rfl) fun k hk => ?_
      rw [if_pos (of_decide_eq_true hk)]
      have hvalue : Takes n (do let _ ← advance; some <$> initialiser .standard) (initWords (some e)) (· = .semicolon)
          fun init => init.map Expr.bare = d.init.map Expr.bare := by
        refine Takes.advance_bind fun _ _ => Takes.map ((takes_initialiser (h.init e hinit)).weaken le_rfl ?_ ?_)
        · intro k hk
          rw [of_decide_eq_true hk]
          rfl
        · intro e' he'
          rw [hinit, Option.map_some, he', Option.map_some]
      exact Takes.bind_last hvalue fun init hinit => hnode hinit
  · cases hinit : d.init with
    | none => exact hrest.mono fun k hk => by rw [of_decide_eq_true hk]; decide
    | some e => rfl

theorem takes_varDecls {start : Position} {d : VarDecl} {ident : Ident} (h : d.Written)
    (hident : ident.bare = d.ident.bare) :
    Takes n (varDecls .standard start d.ty.base ident d.isGlobal)
      (d.ty.suffix ++ (initWords d.init ++ [TokenKind.semicolon.word])) S
      fun ds => ds.map VarDecl.bare = [d.bare] := by
  unfold varDecls
  rw [← List.append_assoc]
  refine Takes.bind (takes_initDeclarator h hident) (fun d' hd' => ?_) fun _ _ => rfl
  refine Takes.bind_nil (Takes.many_nil (S := (· = .semicolon)) fun k hk => ?_) (fun ds hds => ?_) fun _ _ => rfl
  · rw [of_decide_eq_true hk]
    rfl
  · refine Takes.expect_bind rfl fun _ _ => Takes.pure ?_
    rw [hds, List.map_singleton, hd']

theorem takes_localDecls {d : VarDecl} (h : d.Written) (hlocal : d.isGlobal = false) :
    Takes n (localDecls .standard) d.words S fun ds => ds.map VarDecl.bare = [d.bare] := by
  unfold localDecls
  refine Takes.silent_bind (fun p => ⟨_, _, rfl, rfl⟩) fun start => ?_
  refine takes_declarator h.ty fun ident hident => ?_
  rw [← hlocal]
  exact takes_varDecls h hident

theorem takes_param {p : Param} (h : p.Written) :
    Takes n param p.words (fun k => k ≠ .lBracket) fun p' => p'.bare = p.bare := by
  unfold param
  refine Takes.silent_bind (fun p => ⟨_, _, rfl, rfl⟩) fun start => ?_
  rw [Param.words, ← List.append_nil (declarator _ _)]
  refine takes_declarator h.ty fun ident hident => ?_
  rw [List.append_nil]
  refine Takes.bind_last (takes_declaratorSuffix h.ty) fun ty hty => ?_
  refine Takes.silent_bind (fun p => ⟨_, _, rfl, rfl⟩) fun _ => ?_
  refine Takes.silent_bind (fun p => ⟨_, _, rfl, rfl⟩) fun _ => Takes.pure ?_
  rw [Param.bare, Param.bare, hident, hty]

end Grammar

end VCLang
