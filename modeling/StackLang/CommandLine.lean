import StackLang.CommandLine.Arguments
import StackLang.Library

/-!
# The command line

Runs files, or the standard input line by line.  A failing line is reported and the next one is
read; a failing file ends the run.

* `run_of_usageError`: nothing is run when the arguments cannot be understood.
-/

namespace StackLang

/-- A monad with files, a text input and two text outputs. -/
class Console (m : Type → Type) extends FileAccess m where
  print : String → m Unit
  /-- Write to the output for what goes wrong. -/
  complain : String → m Unit
  /-- Pass a state through an action for every line of the input. -/
  foldLines {σ : Type} : (σ → String → m σ) → σ → m (Except FileProblem σ)

namespace CommandLine

variable {m : Type → Type} [Monad m] [Console m]

/-- Print what a session has to print, and go on with the session. -/
def flush (s : Session) : m Session := do
  let (text, s) := s.takeOutput
  Console.print text
  pure s

/-- Evaluate a line of the input and report its outcome. -/
def answerLine (fuel : Nat) (s : Session) (line : String) : m Session := do
  match (do Action.evaluate fuel line; Action.runPending fuel : Action Unit) s with
  | .ok () s =>
    let s ← flush s
    Console.print " ok\n"
    pure s
  | .error fault s =>
    let s ← flush s
    Console.print "\n"
    Console.complain s!"Error: {fault.text}\n{fault.hint}\n"
    pure s

/-- Evaluate a file to its end. -/
def runFile (fuel : Nat) (l : Library) (s : Session) (file : String) :
    m (Except Fault (Library × Session)) := do
  match ← l.load fuel s file with
  | (l, .ok () s) => match Action.runPending fuel s with
    | .ok () s => return .ok (l, ← flush s)
    | .error fault s => let _ ← flush s; return .error fault
  | (_, .error fault s) => let _ ← flush s; return .error fault

/-- Give the value of an operation on files, or fail with its cause. -/
def orFail {α : Type} (p : m (Except Cause α)) : ExceptT Fault m α :=
  ExceptT.mk do return (← p).mapError Fault.ofCause

/-- Everything that the arguments ask for, with more directories to look for files. -/
def runAll (fuel : Nat) (arguments : Arguments) (directories : List String) :
    ExceptT Fault m Unit := do
  let library ← (arguments.libraries ++ directories).foldlM
    (fun l directory => orFail (l.addSearchPath directory)) Library.empty
  let start := Session.ofConfig { Config.standard with mode := arguments.mode.getD .run }
  let session ←
    if arguments.files.isEmpty then
      orFail do return (← Console.foldLines (answerLine fuel) start).mapError (Cause.io ·.text)
    else do
      let (_, s) ← arguments.files.foldlM
        (fun (l, s) file => ExceptT.mk (runFile fuel l s file)) (library, start)
      pure s
  if let some path := arguments.save then
    let count ← orFail (Library.save session path)
    (Console.complain s!"Saved {count} word(s) to {path}.\n" : m Unit)

/-- Run the arguments and answer with an exit code.  `searchPath` holds more directories to look for
files in, with colons between them. -/
def run (fuel : Nat) (arguments : List String) (searchPath : Option String) : m UInt32 := do
  match Arguments.ofList arguments with
  | .error e =>
    Console.complain s!"error: {e.text}\n"
    return 2
  | .ok arguments =>
    match ← (runAll fuel arguments ((searchPath.map (·.splitOn ":")).getD [])).run with
    | .ok () => return 0
    | .error fault =>
      Console.complain s!"Error: {fault.text}\n"
      return 1

theorem run_of_usageError {arguments : List String} {e : UsageError}
    (h : Arguments.ofList arguments = .error e) (fuel : Nat) (searchPath : Option String) :
    run fuel arguments searchPath =
      (do Console.complain s!"error: {e.text}\n"; return 2 : m UInt32) := by
  simp [run, h]

end CommandLine

end StackLang
