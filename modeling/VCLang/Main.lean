/-
The program: it reads the file that the command line names and prints what the run on it prints.
-/
import VCLang.CommandLine
namespace VCLang.CommandLine

def usage : String := "Usage: vc [--tokens] [--dump-ast] [--parse-only] [--no-advisories] <FILE>"

/-- Runs a request on its file. -/
def runFile (r : Request) : IO UInt32 := do
  try
    let source ← IO.FS.readFile r.file
    let result := r.run source
    IO.print result.stdout
    IO.eprint result.stderr
    return result.exitCode.toUInt32
  catch e =>
    IO.eprintln s!"Failed to read {r.file}: {e}"
    return 1

end VCLang.CommandLine

open VCLang.CommandLine in
def main (args : List String) : IO UInt32 := do
  match Request.ofArguments? args with
  | some r => runFile r
  | none => do
    IO.eprintln usage
    return 2
