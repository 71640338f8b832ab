import StackLang.Dictionary.Similar
import StackLang.Event
import StackLang.Memory
import StackLang.Pending
import StackLang.ReturnStack
import StackLang.Operand

/-!
# Sessions

The state of a session: its stacks, memory and dictionary, the sources that wait, and the word that
runs.  A session is a machine that stops between any two operations, so everything that is in
flight is part of the state.

* `hasPending_iff`: something is in flight when a word runs or a source waits.
* `size_dictionary_ofConfig`: a fresh session knows the built-in words and no others.
-/

namespace StackLang

/-- How much of an evaluation runs before control goes back to the caller. -/
inductive Mode where
  /-- All of it. -/
  | run
  /-- All of it, but the end of every word waits to be acknowledged. -/
  | synchronized
  /-- Nothing: sources are queued, and every step is asked for. -/
  | step
deriving Repr, DecidableEq

namespace Mode

def text : Mode → String
  | run => "run"
  | synchronized => "synchronized"
  | step => "step"

/-- The mode with a name, in any letter case.  No letter outside ASCII has a letter of these names
as its lower case. -/
def ofText? (s : String) : Option Mode :=
  match s.toLower with
  | "run" => some run
  | "synchronized" | "sync" => some synchronized
  | "step" => some step
  | _ => none

/-- The complaint about a text that names no mode. -/
def unknown (s : String) : String :=
  s!"Unknown execution mode '{s}', expected run, synchronized or step."

theorem ofText?_text (m : Mode) : ofText? m.text = some m := by
  cases m <;> decide +kernel

end Mode

/-- The settings of a session. -/
structure Config where
  mode : Mode
  /-- How many items the return stack may hold. -/
  maxReturnDepth : Nat
  /-- How many events an attached queue keeps. -/
  eventCapacity : Nat
  /-- How many memory cells can be allotted. -/
  maxCells : Nat
deriving Repr, DecidableEq

def Config.standard : Config where
  mode := .run
  maxReturnDepth := 4096
  eventCapacity := 1024
  maxCells := 1048576

structure Session where
  config : Config
  mode : Mode
  stack : DataStack
  returns : ReturnStack
  /-- The place in a source that was reached last. -/
  location : Option Location
  /-- The built-in word that is running. -/
  builtin : Option String
  /-- The words that are running, the innermost first. -/
  calls : List CallItem
  dictionary : Dictionary
  cells : CellStore
  /-- The dictionary entry that `reset` goes back to. -/
  sessionMark : Nat
  /-- The memory cell that `reset` goes back to. -/
  cellMark : Nat
  /-- The sources that wait; the first is being evaluated. -/
  sources : List Pending
  /-- The compiled word that is running. -/
  frame : Option CallFrame
  /-- What was printed and not taken yet. -/
  output : String
  observers : Observers
  /-- Is the evaluation to stop before its next operation? -/
  cancelled : Bool

namespace Session

/-- The dictionary of the built-in words. -/
def builtins : Dictionary :=
  Builtin.all.foldl (fun d word => (d.insert (.ofBuiltin word)).2) .empty

/-- A fresh session. -/
def ofConfig (config : Config) : Session where
  config := config
  mode := config.mode
  stack := []
  returns := .empty config.maxReturnDepth
  location := none
  builtin := none
  calls := []
  dictionary := builtins
  cells := .empty config.maxCells
  sessionMark := builtins.size
  cellMark := 0
  sources := []
  frame := none
  output := ""
  observers := .none
  cancelled := false

/-- The word that is running, or the empty text. -/
def currentWord (s : Session) : String :=
  s.builtin.getD ((s.frame.map (·.name)).getD "")

/-- The definition that is being built from the first source. -/
def definition? (s : Session) : Option Definition :=
  s.sources.head?.bind (·.definition)

def isCompiling (s : Session) : Bool :=
  s.definition?.isSome

/-- Is an evaluation in flight? -/
def hasPending (s : Session) : Bool :=
  s.frame.isSome || !s.sources.isEmpty

/-- An error of the evaluation, with the place and the running words. -/
def error (s : Session) (cause : Cause) : ScriptError :=
  ⟨s.location, cause, some s.calls⟩

/-- Take the present dictionary and memory as what `reset` goes back to. -/
def mark (s : Session) : Session :=
  { s with sessionMark := s.dictionary.size, cellMark := s.cells.here }

/-- Clear the data stack and drop the words and memory cells made since the mark.  What is running
goes on. -/
def resetDefinitions (s : Session) : Session :=
  { s with
    stack := []
    dictionary := s.dictionary.forgetBackTo s.sessionMark
    cells := s.cells.truncate s.cellMark }

/-- Drop the evaluation in flight and go back to the mark. -/
def reset (s : Session) : Session :=
  resetDefinitions { s with
    returns := s.returns.clear
    calls := []
    sources := []
    frame := none
    builtin := none }

/-- What was printed, and the session without it. -/
def takeOutput (s : Session) : String × Session :=
  (s.output, { s with output := "" })

/-- The dictionary entries reserved for definitions that are still open. -/
def openWords (s : Session) : List Nat :=
  s.sources.filterMap fun source => source.definition.map (·.word)

/-- Drop the evaluation in flight after an error, with the entries reserved for open definitions.
The data stack stays as it is. -/
def abort (s : Session) (e : ScriptError) : Session :=
  { s with
    dictionary := match s.openWords.min? with
      | some word => s.dictionary.forgetBackTo word
      | none => s.dictionary
    sources := []
    frame := none
    returns := s.returns.clear
    calls := []
    builtin := none
    cancelled := s.cancelled && e.cause != .cancelled
    observers := s.observers.record (.failed e) }

theorem hasPending_iff (s : Session) :
    s.hasPending = true ↔ s.frame ≠ none ∨ s.sources ≠ [] := by
  cases hf : s.frame <;> cases hs : s.sources <;> simp [hasPending, hf, hs]

theorem size_dictionary_ofConfig (config : Config) :
    (ofConfig config).dictionary.size = Builtin.all.length := by
  have grow (words : List Builtin) (d : Dictionary) :
      (words.foldl (fun d word => (d.insert (.ofBuiltin word)).2) d).size =
        d.size + words.length := by
    induction words generalizing d with
    | nil => rfl
    | cons word words ih =>
      rw [List.foldl_cons, ih]
      simp [Dictionary.insert, Dictionary.size]
      omega
  rw [show (ofConfig config).dictionary = builtins from rfl, builtins, grow]
  simp [Dictionary.empty, Dictionary.size]

end Session

end StackLang
