/-
Layout does not matter. Two texts that are cut into the same words, whatever blanks, lines and comments stand between
these, are parsed and checked in step: both fail with the same fault at the token of the same index, or both are the
same program apart from places, and the checks of it find the same faults in the same order and leave the same program.
-/
import VCLang.Proofs.Grammar.Reports
import VCLang.Proofs.Lockstep.Grammar
import VCLang.Proofs.Lockstep.Program
namespace VCLang

/-! ## Parses of texts -/

/-- A parse ends at some token of the text. -/
theorem exists_stop (source : String) :
    ∃ w, (tokenize source).1 = w ++ (Grammar.program .standard (.ofString source)).2.tokens := by
  have hreports := Grammar.reportsOnce_program .standard (.ofString source)
  rw [← tokens_ofString]
  generalize Grammar.program .standard (.ofString source) = o at hreports ⊢
  cases hreports with
  | ok hscans _ => exact hscans.tokens
  | error hscans _ _ => exact hscans.tokens

theorem alike_ofString {source source' : String}
    (h : (tokenize source).1.map Token.word = (tokenize source').1.map Token.word) :
    (Parser.ofString source).Alike (Parser.ofString source') := by
  obtain ⟨l, ls, -, hparser⟩ := exists_ofString source
  obtain ⟨l', ls', -, hparser'⟩ := exists_ofString source'
  constructor
  · rw [Parser.words, Parser.words, tokens_ofString, tokens_ofString, h]
  · rw [hparser, hparser']
    exact ⟨rfl, rfl, rfl⟩

/-! ## Checks of programs -/

/-- The checks of programs that are the same apart from places. -/
theorem check_placeless {p p' : Program} (h : p.relabel .placeless = p'.relabel .placeless) (options : Typing.Options) :
    (check options p).1.relabel .placeless = (check options p').1.relabel .placeless ∧
      (check options p).2.map Error.fault = (check options p').2.map Error.fault := by
  have hcheck := check_relabel .placeless options p
  rw [h, check_relabel] at hcheck
  obtain ⟨hprogram, herrors⟩ := Prod.mk.inj hcheck
  have hfault (errors : List Error) :
      (errors.map (Error.relabel .placeless)).map Error.fault = errors.map Error.fault := by
    rw [List.map_map]
    refine List.map_congr_left fun e _ => ?_
    show e.fault.relabel .placeless = e.fault
    cases e.fault <;> rfl
  refine ⟨hprogram.symm, ?_⟩
  rw [← hfault, ← hfault (check options p').2, herrors]

/-! ## Layout -/

/-- Results of two parses that are the same, apart from places: errors of one fault at the tokens of one index, or
programs with the same flat form, of which every check finds the same faults and leaves the same flat form. -/
inductive SameButPlaces (source source' : String) : Except Error Program → Except Error Program → Prop
  | error {k : Nat} {t t' : Token} {f : Fault} : (tokenize source).1[k]? = some t →
    (tokenize source').1[k]? = some t' → SameButPlaces source source' (.error ⟨f, t.span⟩) (.error ⟨f, t'.span⟩)
  | ok {p p' : Program} : p.arena.unspanned = p'.arena.unspanned →
    (∀ options, (check options p).1.arena.unspanned = (check options p').1.arena.unspanned ∧
      (check options p).2.map Error.fault = (check options p').2.map Error.fault) →
    SameButPlaces source source' (.ok p) (.ok p')

/-- Layout does not matter: texts with the same words, whatever stands between these, are parsed and checked alike. -/
theorem parse_sameButPlaces {source source' : String}
    (h : (tokenize source).1.map Token.word = (tokenize source').1.map Token.word) :
    SameButPlaces source source' (parse source).result (parse source').result := by
  have houtcome := Grammar.alike_program (d := .standard) _ _ (alike_ofString h)
  obtain ⟨w, hstop⟩ := exists_stop source
  obtain ⟨w', hstop'⟩ := exists_stop source'
  unfold parse
  generalize Grammar.program .standard (.ofString source) = o at houtcome hstop ⊢
  generalize Grammar.program .standard (.ofString source') = o' at houtcome hstop' ⊢
  cases houtcome with
  | ok hprogram _ =>
    refine .ok (Program.arena_unspanned_of_placeless hprogram) fun options => ?_
    obtain ⟨hchecked, hfaults⟩ := check_placeless hprogram options
    exact ⟨Program.arena_unspanned_of_placeless hchecked, hfaults⟩
  | @error f q q' hq =>
    dsimp only at hstop hstop'
    -- as many tokens are left in both texts, so that as many have been moved past
    have hlength : w.length = w'.length := by
      have hall := congrArg List.length h
      have hrest := hq.remaining
      rw [List.length_map, List.length_map, hstop, hstop', List.length_append, List.length_append,
        Parser.length_tokens, Parser.length_tokens] at hall
      omega
    have hat (v : List Token) (q : Parser) : (v ++ q.tokens)[v.length]? = some q.current := by
      rw [List.getElem?_append_right (Nat.le_refl _), Nat.sub_self]
      rfl
    refine .error (k := w.length) ?_ ?_
    · rw [hstop]
      exact hat w q
    · rw [hstop', hlength]
      exact hat w' q'

/-- A comment that looks like code, and a program on one line. -/
theorem parse_sameButPlaces_comments :
    (tokenize "int x=1;// int\nint main ( ) \x7b /* \x7d */ return x ;\n\x7d").1.map Token.word =
        (tokenize "int x = 1; int main()\x7breturn x;\x7d").1.map Token.word ∧
      SameButPlaces "int x=1;// int\nint main ( ) \x7b /* \x7d */ return x ;\n\x7d"
        "int x = 1; int main()\x7breturn x;\x7d"
        (parse "int x=1;// int\nint main ( ) \x7b /* \x7d */ return x ;\n\x7d").result
        (parse "int x = 1; int main()\x7breturn x;\x7d").result := by
  have hwords : (tokenize "int x=1;// int\nint main ( ) \x7b /* \x7d */ return x ;\n\x7d").1.map Token.word =
      (tokenize "int x = 1; int main()\x7breturn x;\x7d").1.map Token.word := by decide +kernel
  exact ⟨hwords, parse_sameButPlaces hwords⟩

end VCLang
