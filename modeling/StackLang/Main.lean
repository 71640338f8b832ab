import StackLang.CommandLine

/-!
# The program

The command line over the files, the input and the outputs of the system.
-/

namespace StackLang

/-- What the system says about a failed operation. -/
def FileProblem.ofError : IO.Error → FileProblem
  | .alreadyExists _ number reason
  | .inappropriateType _ number reason
  | .invalidArgument _ number reason
  | .noSuchThing _ number reason
  | .permissionDenied _ number reason
  | .resourceExhausted _ number reason => .refused reason number.toNat
  | .interrupted _ number reason
  | .noFileOrDirectory _ number reason => .refused reason number.toNat
  | .hardwareFault number reason
  | .illegalOperation number reason
  | .otherError number reason
  | .protocolError number reason
  | .resourceBusy number reason
  | .resourceVanished number reason
  | .timeExpired number reason
  | .unsatisfiedConstraints number reason
  | .unsupportedOperation number reason => .refused reason number.toNat
  | .unexpectedEof
  | .userError _ => .notText

/-- Run an operation of the system, whose failure is a value. -/
def attempt {α : Type} (p : IO α) : IO (Except FileProblem α) := do
  try return .ok (← p) catch e => return .error (.ofError e)

/-- Write a text at once. -/
def writeNow (output : IO.FS.Stream) (text : String) : IO Unit := do
  output.putStr text
  output.flush

/-- Pass a state through an action for every line that a stream still has. -/
partial def foldStream {σ : Type} (input : IO.FS.Stream) (step : σ → String → IO σ) (s : σ) :
    IO (Except FileProblem σ) := do
  match ← attempt input.getLine with
  | .error problem => return .error problem
  | .ok "" => return .ok s
  | .ok line => foldStream input step (← step s (String.ofList (Text.dropLineEnd line.toList)))

instance : Console IO where
  isDirectory path := do
    match ← attempt (IO.FS.realPath path) with
    | .ok place => place.isDir
    | .error _ => return false
  isFile path := do
    match ← attempt (do (← IO.FS.realPath path).metadata) with
    | .ok data => return data.type == .file
    | .error _ => return false
  canonical path := attempt do return (← IO.FS.realPath path).toString
  read path := do
    match ← attempt (IO.FS.readBinFile path) with
    | .ok bytes => match String.fromUTF8? bytes with
      | some text => return .ok text
      | none => return .error .notText
    | .error problem => return .error problem
  write path text := attempt (IO.FS.writeFile path text)
  print text := do writeNow (← IO.getStdout) text
  complain text := do writeNow (← IO.getStderr) text
  foldLines step s := do foldStream (← IO.getStdin) step s

end StackLang

/-- Runs with more fuel than any evaluation uses. -/
def main (arguments : List String) : IO UInt32 := do
  StackLang.CommandLine.run (1 <<< 62) arguments (← IO.getEnv "FABLE_LIB_PATH")
