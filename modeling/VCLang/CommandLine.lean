/-
The command line: what the flags ask for, and what a run on a text prints.
-/
import VCLang.Compile
import VCLang.Diagnostic.Render
import VCLang.Json.Encode
import VCLang.Token.Scan
namespace VCLang.CommandLine

/-! ## Flags -/

structure Flags where
  /-- Print the tokens, one on a line. -/
  tokens : Bool
  /-- Print the program, if nothing was reported. -/
  dumpAst : Bool
  /-- Do not check the program. -/
  parseOnly : Bool
  /-- Report nothing but errors. -/
  noAdvisories : Bool
  deriving DecidableEq, Repr

def Flags.none : Flags := ⟨false, false, false, false⟩

/-- A flag by its word, set. -/
def Flags.set? (flags : Flags) (word : String) : Option Flags :=
  match word with
  | "--tokens" => some { flags with tokens := true }
  | "--dump-ast" => some { flags with dumpAst := true }
  | "--parse-only" => some { flags with parseOnly := true }
  | "--no-advisories" => some { flags with noAdvisories := true }
  | _ => Option.none

/-- What the check reports under the flags. -/
def Flags.options (flags : Flags) : Typing.Options := if flags.noAdvisories then .quiet else .standard

/-- A request: flags, and the file to compile. -/
structure Request where
  flags : Flags
  file : String
  deriving DecidableEq, Repr

/-- Reads flags and the one file, which may stand in any order. -/
def readArguments (flags : Flags) (file : Option String) : List String → Option Request
  | [] => file.map (⟨flags, ·⟩)
  | word :: words =>
    if word.startsWith "-" then (flags.set? word).bind (readArguments · file words)
    else if file.isNone then readArguments flags (some word) words
    else none

/-- The request that the words of a command line stand for, if they stand for one. -/
def Request.ofArguments? (words : List String) : Option Request := readArguments .none none words

/-! ## A run -/

/-- What a run prints, and whether nothing was reported. -/
structure Run where
  succeeded : Bool
  stdout : String
  stderr : String
  deriving DecidableEq, Repr

/-- The exit code of a run. -/
def Run.exitCode (r : Run) : Nat := if r.succeeded then 0 else 1

/-- The work that the flags ask for. -/
def Flags.compile (flags : Flags) (source : String) : Compilation :=
  if flags.parseOnly then VCLang.parseOnly source else VCLang.compile flags.options source

/-- The tokens of a text, if they are asked for. -/
def tokenLines (flags : Flags) (source : String) : List String :=
  if flags.tokens then (tokenize source).1.map fun t => t.toJson.compact else []

/-- The program, if it is asked for and nothing was reported. -/
def programLines (flags : Flags) (c : Compilation) : List String :=
  if flags.dumpAst then c.program.toList.map fun p => p.arena.toJson.pretty else []

/-- The last line. -/
def verdict (succeeded : Bool) : String :=
  if succeeded then "Compilation was successful." else "Compilation was unsuccessful."

/-- Texts as lines, each ended by a newline. -/
def joinLines (lines : List String) : String := String.join (lines.map (· ++ "\n"))

/-- Runs a request on the text of its file. -/
def Request.run (r : Request) (source : String) : Run :=
  let c := r.flags.compile source
  { succeeded := c.succeeded
    stdout := joinLines (tokenLines r.flags source ++ programLines r.flags c ++ [verdict c.succeeded])
    stderr := String.join (c.errors.map fun e => e.diagnostic.render source r.file) }

theorem Run.exitCode_eq_zero_iff (r : Run) : r.exitCode = 0 ↔ r.succeeded = true := by
  cases h : r.succeeded <;> simp [Run.exitCode, h]

end VCLang.CommandLine
