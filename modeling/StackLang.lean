import StackLang.CommandLine.Transcript
import StackLang.Dictionary.Listing
import StackLang.Main
import StackLang.Proofs.Agreement.Interpreting
import StackLang.Proofs.Arithmetic.Division
import StackLang.Proofs.Call.CountedLoops
import StackLang.Proofs.Call.Directions
import StackLang.Proofs.Call.Discipline
import StackLang.Proofs.Call.LoopDepth
import StackLang.Proofs.Call.Running
import StackLang.Proofs.Call.Safe
import StackLang.Proofs.Definition.Acceptance
import StackLang.Proofs.Definition.Refusals
import StackLang.Proofs.Dictionary.Shadowing
import StackLang.Proofs.Evaluation.Lines
import StackLang.Proofs.Evaluation.Modes
import StackLang.Proofs.Evaluation.Queue
import StackLang.Proofs.Evaluation.Recased
import StackLang.Proofs.Events.Nesting
import StackLang.Proofs.Events.Recent
import StackLang.Proofs.Fault.Atomicity
import StackLang.Proofs.Fault.Untouched
import StackLang.Proofs.Framework.Outcome
import StackLang.Proofs.Library.Retrying
import StackLang.Proofs.Saved.Bodies
import StackLang.Proofs.Saved.Compiling
import StackLang.Proofs.Saved.Consuming
import StackLang.Proofs.Saved.Counting
import StackLang.Proofs.Saved.Faithful
import StackLang.Proofs.Saved.Literals
import StackLang.Proofs.Saved.Loading
import StackLang.Proofs.Saved.Recording
import StackLang.Proofs.Saved.Recreation
import StackLang.Proofs.Saved.Values
import StackLang.Proofs.Structured.Correctness
import StackLang.Proofs.Termination.Stops
import StackLang.Proofs.Text.EditDistance
import StackLang.Proofs.Token.Coverage
import StackLang.Proofs.Token.NumberGrammar
import StackLang.Proofs.Token.Printing
import StackLang.Proofs.Words.Binding
import StackLang.Proofs.Words.Building
import StackLang.Proofs.Words.Closing
import StackLang.Proofs.Words.Marked
import StackLang.Proofs.Words.PrintedText
import StackLang.Proofs.Words.Variables
