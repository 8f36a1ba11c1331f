/-
How the flags of the command line go together. Whatever the text is and whichever flags are set, a run succeeds exactly
if it reports nothing; the flags that print only print, and those that leave work out leave reports out.
-/
import VCLang.CommandLine
import VCLang.Proofs.Grammar.Reports
import VCLang.Proofs.Lockstep.Program
namespace VCLang

/-! ## Compilations -/

/-- A parse without a check has a result exactly if nothing was reported. -/
theorem parseOnly_isSome_iff (source : String) :
    (parseOnly source).program.isSome = true ↔ (parseOnly source).errors = [] := by
  have hreports := parseReports source
  unfold parseOnly
  generalize parse source = parsed at hreports ⊢
  cases hreports with
  | ok =>
    rw [Compilation.isSome_ofProgram, List.isEmpty_iff]
    rfl
  | error => simp

/-- What is reported by a parse is reported first. -/
theorem parseOnly_errors_prefix (options : Typing.Options) (source : String) :
    (parseOnly source).errors <+: (compile options source).errors := by
  unfold parseOnly compile
  generalize parse source = parsed
  obtain ⟨_ | p, errors⟩ := parsed
  · exact List.prefix_refl _
  · exact List.prefix_append _ _

/-- Where nothing is reported, there are no advisories to leave out. -/
theorem compile_quiet {source : String} (h : (compile .standard source).errors = []) :
    compile .quiet source = compile .standard source := by
  revert h
  unfold compile
  generalize parse source = parsed
  obtain ⟨_ | p, errors⟩ := parsed
  · exact fun _ => rfl
  · intro h
    have hnone : (check .standard p).2 = [] := (List.append_eq_nil_iff.1 h).2
    dsimp only
    rw [check_options .quiet p, hnone]
    rfl

/-- A message has a first line at least. -/
theorem Diagnostic.render_ne_empty (d : Diagnostic) (source file : String) : d.render source file ≠ "" := by
  unfold render
  have hheading : s!"{d.text}\n-> {file}\n" ≠ "" := by
    intro h
    exact absurd (String.append_eq_empty_iff.1 h).2 (by decide)
  cases lineAt source.toList d.position.start.line with
  | none => exact hheading
  | some line => exact fun h => hheading (String.append_eq_empty_iff.1 h).1

namespace CommandLine

variable {flags : Flags} {source file : String}

/-! ## What is printed -/

/-- The last line of a text. -/
def EndsInLine (text line : String) : Prop :=
  ∃ front, (front = "" ∨ ∃ before, front = before ++ "\n") ∧ text = front ++ (line ++ "\n")

theorem joinLines_append (lines lines' : List String) :
    joinLines (lines ++ lines') = joinLines lines ++ joinLines lines' := by
  rw [joinLines, List.map_append, String.join_append]
  rfl

theorem joinLines_singleton (line : String) : joinLines [line] = line ++ "\n" := by
  rw [joinLines, List.map_singleton, String.join_cons, String.join_nil, String.append_empty]

/-- Lines are nothing, or end with a newline. -/
theorem joinLines_ends (lines : List String) :
    joinLines lines = "" ∨ ∃ before, joinLines lines = before ++ "\n" := by
  rcases List.eq_nil_or_concat lines with rfl | ⟨front, last, rfl⟩
  · exact .inl rfl
  · refine .inr ⟨joinLines front ++ last, ?_⟩
    rw [List.concat_eq_append, joinLines_append, joinLines_singleton, String.append_assoc]

theorem endsInLine_joinLines (lines : List String) (line : String) : EndsInLine (joinLines (lines ++ [line])) line :=
  ⟨joinLines lines, joinLines_ends lines, by rw [joinLines_append, joinLines_singleton]⟩

theorem EndsInLine.suffix {text line : String} (h : EndsInLine text line) :
    (line ++ "\n").toList <:+ text.toList := by
  obtain ⟨front, -, rfl⟩ := h
  exact ⟨front.toList, String.toList_append.symm⟩

/-- The two verdicts are not mistaken for each other. -/
theorem endsInLine_success_iff (lines : List String) (succeeded : Bool) :
    EndsInLine (joinLines (lines ++ [verdict succeeded])) "Compilation was successful." ↔ succeeded = true := by
  have hends := endsInLine_joinLines lines (verdict succeeded)
  cases succeeded with
  | true => exact ⟨fun _ => rfl, fun _ => hends⟩
  | false =>
    refine ⟨fun h => ?_, fun h => nomatch h⟩
    have hsuffix := List.suffix_of_suffix_length_le h.suffix hends.suffix (by decide)
    exact absurd hsuffix (by decide)

/-! ## The work of a run -/

theorem Flags.isSome_compile (flags : Flags) (source : String) :
    (flags.compile source).program.isSome = (flags.compile source).succeeded := by
  rw [Bool.eq_iff_iff, Compilation.succeeded, List.isEmpty_iff]
  unfold compile
  split_ifs
  · exact parseOnly_isSome_iff source
  · exact compile_isSome_iff flags.options source

theorem Flags.compile_parseOnly (flags : Flags) (source : String) :
    ({ flags with parseOnly := true }.compile source).errors <+:
      ({ flags with parseOnly := false }.compile source).errors :=
  parseOnly_errors_prefix _ source

theorem Flags.compile_noAdvisories (h : ({ flags with noAdvisories := false }.compile source).succeeded = true) :
    { flags with noAdvisories := true }.compile source = { flags with noAdvisories := false }.compile source := by
  rw [Compilation.succeeded, List.isEmpty_iff] at h
  unfold compile at h ⊢
  dsimp only at h ⊢
  split_ifs at h ⊢
  · rfl
  · exact compile_quiet h

/-! ## Runs -/

/-- A run on a text under some flags. -/
abbrev Flags.run (flags : Flags) (file source : String) : Run := (Request.mk flags file).run source

theorem Flags.stderr_eq_empty_iff (flags : Flags) (file source : String) :
    (flags.run file source).stderr = "" ↔ (flags.compile source).succeeded = true := by
  rw [Compilation.succeeded, List.isEmpty_iff]
  change String.join ((flags.compile source).errors.map _) = "" ↔ _
  cases (flags.compile source).errors with
  | nil => exact ⟨fun _ => rfl, fun _ => rfl⟩
  | cons e es =>
    rw [List.map_cons, String.join_cons]
    refine ⟨fun h => ?_, fun h => nomatch h⟩
    exact absurd (String.append_eq_empty_iff.1 h).1 (e.diagnostic.render_ne_empty source file)

/-- What the flags decide on: each does its own, whatever the others are. -/
structure FlagsCompose (file source : String) : Prop where
  silent : ∀ flags : Flags, (flags.run file source).exitCode = 0 ↔ (flags.run file source).stderr = ""
  success : ∀ flags : Flags, (flags.run file source).exitCode = 0 ↔
    EndsInLine (flags.run file source).stdout "Compilation was successful."
  /-- To print the tokens and the program changes neither the exit code nor the reports. -/
  exitCode : ∀ (flags : Flags) (tokens dumpAst : Bool),
    ({ flags with tokens, dumpAst }.run file source).exitCode = (flags.run file source).exitCode
  stderr : ∀ (flags : Flags) (tokens dumpAst : Bool),
    ({ flags with tokens, dumpAst }.run file source).stderr = (flags.run file source).stderr
  /-- Before the verdict stand the tokens of the text and then the program, each if it is asked for. -/
  stdout_success : ∀ flags : Flags, (flags.run file source).exitCode = 0 →
    ∃ p, (flags.compile source).program = some p ∧
      (flags.run file source).stdout = joinLines
        ((if flags.tokens then (tokenize source).1.map fun t => t.toJson.compact else []) ++
          (if flags.dumpAst then [p.arena.toJson.pretty] else []) ++ ["Compilation was successful."])
  /-- A run that fails prints no program. -/
  stdout_failure : ∀ flags : Flags, (flags.run file source).exitCode ≠ 0 →
    (flags.run file source).stdout = joinLines
      ((if flags.tokens then (tokenize source).1.map fun t => t.toJson.compact else []) ++
        ["Compilation was unsuccessful."])
  /-- Without the check a run ends its reports earlier. -/
  parseOnly : ∀ flags : Flags, ∃ rest, ({ flags with parseOnly := false }.run file source).stderr =
    ({ flags with parseOnly := true }.run file source).stderr ++ rest
  /-- A run that succeeds is the same without advisories, in its exit code and in all it prints. -/
  noAdvisories : ∀ flags : Flags, ({ flags with noAdvisories := false }.run file source).exitCode = 0 →
    { flags with noAdvisories := true }.run file source = { flags with noAdvisories := false }.run file source

/-- All flags go together, on any text. -/
theorem flags_compose (file source : String) : FlagsCompose file source where
  silent flags := by rw [Run.exitCode_eq_zero_iff, Flags.stderr_eq_empty_iff]; rfl
  success flags := by
    rw [Run.exitCode_eq_zero_iff]
    exact (endsInLine_success_iff _ _).symm
  exitCode flags tokens dumpAst := rfl
  stderr flags tokens dumpAst := rfl
  stdout_success flags h := by
    have hsucceeded : (flags.compile source).succeeded = true := (Run.exitCode_eq_zero_iff _).1 h
    obtain ⟨p, hp⟩ := Option.isSome_iff_exists.1 ((flags.isSome_compile source).trans hsucceeded)
    refine ⟨p, hp, ?_⟩
    simp only [Flags.run, Request.run, tokenLines, programLines, verdict, hsucceeded, hp, if_true, Option.toList_some,
      List.map_singleton]
  stdout_failure flags h := by
    have hfailed : (flags.compile source).succeeded = false := by
      rw [← Bool.not_eq_true]
      exact fun hsucceeded => h ((Run.exitCode_eq_zero_iff _).2 hsucceeded)
    have hp : (flags.compile source).program = none := by
      rw [← Option.not_isSome_iff_eq_none, flags.isSome_compile, hfailed]
      decide
    simp [Flags.run, Request.run, tokenLines, programLines, verdict, hfailed, hp]
  parseOnly flags := by
    obtain ⟨more, hmore⟩ := flags.compile_parseOnly source
    refine ⟨String.join (more.map fun e => e.diagnostic.render source file), ?_⟩
    simp only [Flags.run, Request.run]
    rw [← hmore, List.map_append, String.join_append]
  noAdvisories flags h := by
    have hsame := Flags.compile_noAdvisories ((Run.exitCode_eq_zero_iff _).1 h)
    simp only [Flags.run, Request.run, hsame]
    rfl

/-- A run may fail for an advisory alone. -/
example : (Flags.none.run "main.vc" "int main() { return 0; ; }").exitCode = 1 ∧
    ({ Flags.none with noAdvisories := true }.run "main.vc" "int main() { return 0; ; }").exitCode = 0 := by
  decide +kernel

end CommandLine

end VCLang
