import VCLang.Main
import VCLang.Proofs.Arena.Rewired
import VCLang.Proofs.CommandLine.Flags
import VCLang.Proofs.Diagnostic.Caret
import VCLang.Proofs.Diagnostic.Wording
import VCLang.Proofs.Elaboration.Frame
import VCLang.Proofs.Elaboration.Resolution
import VCLang.Proofs.Elaboration.Returns
import VCLang.Proofs.Grammar.Termination
import VCLang.Proofs.Lockstep.Layout
import VCLang.Proofs.Lockstep.Renaming
import VCLang.Proofs.Printing.RoundTrip
import VCLang.Proofs.Recheck.Program
import VCLang.Proofs.Scope.History
import VCLang.Proofs.Scope.Restored
import VCLang.Proofs.Span.Report
import VCLang.Proofs.Token.Concern
import VCLang.Proofs.Token.Longest
import VCLang.Proofs.Token.Newline
import VCLang.Proofs.Token.Stream
import VCLang.Proofs.Typing.Execution
import VCLang.Proofs.Typing.Faults
import VCLang.Proofs.Typing.Soundness
import VCLang.Proofs.Verdict.Arguments
import VCLang.Proofs.Verdict.Contagion
import VCLang.Proofs.Verdict.Flow
import VCLang.Proofs.Verdict.Strings
import VCLang.Proofs.Verdict.Variables
