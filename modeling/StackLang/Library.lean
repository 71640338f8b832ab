import StackLang.Files
import StackLang.Session.Evaluate
import StackLang.Session.Saved
import StackLang.Text.Lines

/-!
# Libraries

Files of source text for a session.  A file is given by a path or by a name that is looked for in
the search directories, and is known by its canonical path.  A session never touches a file itself.

* `mem_loaded_insert`: a file that is noted as loaded joins those that were.
-/

namespace StackLang

structure Library where
  /-- The directories in which names are looked for, in this order. -/
  searchPaths : List String
  /-- The canonical paths of the files that were read for a session. -/
  loaded : List String
deriving Repr, DecidableEq

namespace Library

def empty : Library :=
  ⟨[], []⟩

/-- Note a file as loaded. -/
def insert (l : Library) (path : String) : Library :=
  { l with loaded := l.loaded.insert path }

/-- Was the file with this canonical path loaded? -/
def isLoaded (l : Library) (path : String) : Bool :=
  l.loaded.contains path

theorem mem_loaded_insert {l : Library} {path other : String} :
    other ∈ (l.insert path).loaded ↔ other = path ∨ other ∈ l.loaded := by
  simp [insert]

/-- What a saved file starts with. -/
def preamble : String :=
  "\\ Words saved from a fable session.\n\\ Load this file to define them again.\n\n"

section Access

variable {m : Type → Type} [Monad m] [FileAccess m]

/-- Look for names in one more directory, which has to exist. -/
def addSearchPath (l : Library) (directory : String) : m (Except Cause Library) := do
  if ← FileAccess.isDirectory directory then
    pure (.ok { l with searchPaths := l.searchPaths ++ [directory] })
  else pure (.error (.io s!"Search path {directory} is not a directory."))

/-- The paths that a name can stand for: itself, and then those in the search directories. -/
def candidates (l : Library) (name : String) : List String :=
  name :: l.searchPaths.map (joinPath · name)

/-- The first path that names a file. -/
def firstFile : List String → m (Option String)
  | [] => pure none
  | path :: paths => do if ← FileAccess.isFile path then pure (some path) else firstFile paths

/-- The canonical path of the file with a name. -/
def resolve (l : Library) (name : String) : m (Except Cause String) := do
  match ← firstFile (l.candidates name) with
  | some path => return (← FileAccess.canonical path).mapError (Cause.io ·.text)
  | none => return .error (.io s!"File {name} not found.")

/-- The canonical path of the file with a name, and its text. -/
def fetch (l : Library) (name : String) : m (Except Cause (String × String)) := do
  match ← l.resolve name with
  | .error cause => return .error cause
  | .ok path => return ((← FileAccess.read path).map (path, ·)).mapError (Cause.io ·.text)

/-- Evaluate the file with a name.  It counts as loaded as soon as its text is read. -/
def load (fuel : Nat) (l : Library) (s : Session) (name : String) :
    m (Library × EStateM.Result Fault Session Unit) := do
  match ← l.fetch name with
  | .error cause => return (l, .error (.ofCause cause) s)
  | .ok (path, source) => return (l.insert path, Action.processSource fuel path source s)

/-- Evaluate the file with a name, unless it was loaded before.  Was it evaluated? -/
def loadOnce (fuel : Nat) (l : Library) (s : Session) (name : String) :
    m (Library × EStateM.Result Fault Session Bool) := do
  match ← l.resolve name with
  | .error cause => return (l, .error (.ofCause cause) s)
  | .ok path =>
    if l.isLoaded path then return (l, .ok false s)
    else return match ← l.load fuel s path with
      | (l, .ok () s) => (l, .ok true s)
      | (l, .error fault s) => (l, .error fault s)

/-- Write the words that a session has defined to a file that can be loaded.  The answer is the
number of lines of source. -/
def save (s : Session) (path : String) : m (Except Cause Nat) := do
  let written ← FileAccess.write path (preamble ++ s.source)
  return (written.map fun _ => (Text.lines s.source).length).mapError (Cause.io ·.text)

end Access

end Library

end StackLang
