/-!
# Files

The operations on files that libraries and the command line need, over any monad that has them, and
what can go wrong with them.

* `joinPath_of_absolute`: a name that starts at the root is not looked for in a directory.
-/

namespace StackLang

/-- Why an operation on a file failed. -/
inductive FileProblem where
  /-- The system refused it, with the number of its reason. -/
  | refused (reason : String) (number : Nat)
  /-- A path holds a character that no path can hold. -/
  | badPath
  /-- The bytes of a file are not text. -/
  | notText
deriving DecidableEq

namespace FileProblem

def notFound : FileProblem :=
  refused "No such file or directory" 2

def notDirectory : FileProblem :=
  refused "Not a directory" 20

def isDirectory : FileProblem :=
  refused "Is a directory" 21

def nameTooLong : FileProblem :=
  refused "File name too long" 36

def text : FileProblem → String
  | refused reason number => s!"{reason} (os error {number})"
  | badPath => "file name contained an unexpected NUL byte"
  | notText => "stream did not contain valid UTF-8"

end FileProblem

/-- A monad with files that are named by paths. -/
class FileAccess (m : Type → Type) where
  /-- Does the path name a directory? -/
  isDirectory : String → m Bool
  /-- Does the path name a file? -/
  isFile : String → m Bool
  /-- The one path that names the same place and starts at the root, without detours. -/
  canonical : String → m (Except FileProblem String)
  /-- The text of a file. -/
  read : String → m (Except FileProblem String)
  /-- Make a text the whole of a file, which need not exist. -/
  write : (path text : String) → m (Except FileProblem Unit)

/-- Does a path start at the root? -/
def isAbsolute (path : String) : Bool :=
  path.toList.head? == some '/'

/-- Does a path end in a slash, and so can name nothing but a directory? -/
def endsInSlash (path : String) : Bool :=
  path.toList.getLast? == some '/'

/-- The path of a name in a directory. -/
def joinPath (directory name : String) : String :=
  if isAbsolute name then name
  else if directory.isEmpty || endsInSlash directory then directory ++ name
  else directory ++ "/" ++ name

theorem joinPath_of_absolute {name : String} (h : isAbsolute name = true) (directory : String) :
    joinPath directory name = name := by
  simp [joinPath, h]

end StackLang
