import StackLang.Files

/-!
# File trees

A tree of directories and files held in memory.  A place in it is the list of the names on the way
from the root; a path is a text that leads to a place from the root or from the working directory.

* `checkPath_eq_ok_iff`: which texts can name a place at all.
* `find?_put_self`, `find?_put_of_ne`: a file that is put somewhere is found there, and nothing
  else changes.
-/

namespace StackLang

/-- What lies at a place. -/
inductive FileNode where
  | directory
  | file (bytes : ByteArray)

def FileNode.isDirectory : FileNode → Bool
  | directory => true
  | file _ => false

/-- The names on the way from the root. -/
abbrev Place := List String

structure FileTree where
  /-- All places but the root, which is always a directory.  Of two nodes at one place the first
  counts. -/
  nodes : List (Place × FileNode)
  workingDirectory : Place

namespace FileTree

/-- What lies at a place, if anything. -/
def find? (t : FileTree) (place : Place) : Option FileNode :=
  if place = [] then some .directory else t.nodes.lookup place

def put (t : FileTree) (place : Place) (node : FileNode) : FileTree :=
  { t with nodes := (place, node) :: t.nodes }

/-- Make every place on a way from the root a directory that has nothing yet. -/
def makeDirectories (t : FileTree) (place : Place) : FileTree :=
  (List.range (place.length + 1)).foldl
    (fun t n => if (t.find? (place.take n)).isNone then t.put (place.take n) .directory else t) t

/-- The names in a path. -/
def names (path : String) : List String :=
  ((path.toList.splitOn '/').filter (· ≠ [])).map String.ofList

/-- The most bytes that one name in a path may have. -/
def maxNameSize : Nat := 255

/-- The most bytes that a path may have. -/
def maxPathSize : Nat := 4095

/-- Go from a place to one of the names in it. -/
def enter (t : FileTree) (here : Place) (name : String) : Except FileProblem Place :=
  match t.find? here with
  | some .directory =>
    if name = "." then .ok here
    else if name = ".." then .ok here.dropLast
    else if maxNameSize < name.utf8ByteSize then .error .nameTooLong
    else if (t.find? (here ++ [name])).isSome then .ok (here ++ [name])
    else .error .notFound
  | some (.file _) => .error .notDirectory
  | none => .error .notFound

/-- Where a path starts. -/
def start (t : FileTree) (path : String) : Place :=
  if isAbsolute path then [] else t.workingDirectory

/-- Does a path have a form that can name a place?  Its size counts as it is written, with all
detours. -/
def checkPath (path : String) : Except FileProblem Unit :=
  if path.toList.contains '\x00' then .error .badPath
  else if path.isEmpty then .error .notFound
  else if maxPathSize < path.utf8ByteSize then .error .nameTooLong
  else .ok ()

/-- The place that a path leads to.  A slash at its end asks for a directory. -/
def locate (t : FileTree) (path : String) : Except FileProblem Place := do
  checkPath path
  let steps := names path ++ if endsInSlash path then ["."] else []
  steps.foldlM t.enter (t.start path)

/-- The path of a place. -/
def pathOf (place : Place) : String :=
  "/" ++ "/".intercalate place

def isDirectory (t : FileTree) (path : String) : Bool :=
  match t.locate path with
  | .ok place => (t.find? place).any FileNode.isDirectory
  | .error _ => false

def isFile (t : FileTree) (path : String) : Bool :=
  match t.locate path with
  | .ok place => (t.find? place).any (!·.isDirectory)
  | .error _ => false

/-- The text of the file that a path leads to. -/
def read (t : FileTree) (path : String) : Except FileProblem String := do
  match t.find? (← t.locate path) with
  | some (.file bytes) =>
    match String.fromUTF8? bytes with
    | some text => .ok text
    | none => .error .notText
  | some .directory => .error .isDirectory
  | none => .error .notFound

/-- The place of the file that a path would create.  Its directory has to exist, and the path has to
end in a name that is not a directory's. -/
def placeToWrite (t : FileTree) (path : String) : Except FileProblem Place := do
  checkPath path
  let directory ← (names path).dropLast.foldlM t.enter (t.start path)
  match t.find? directory, (names path).getLast? with
  | some .directory, some last =>
    if endsInSlash path || last = "." || last = ".." then .error .isDirectory
    else if maxNameSize < last.utf8ByteSize then .error .nameTooLong
    else if (t.find? (directory ++ [last])).any FileNode.isDirectory then .error .isDirectory
    else .ok (directory ++ [last])
  | some .directory, none => .error .isDirectory
  | _, _ => .error .notDirectory

/-- The tree after a text has become the whole of the file that a path leads to. -/
def write (t : FileTree) (path text : String) : Except FileProblem FileTree := do
  pure (t.put (← t.placeToWrite path) (.file text.toUTF8))

theorem checkPath_eq_ok_iff {path : String} :
    checkPath path = .ok () ↔
      '\x00' ∉ path.toList ∧ path ≠ "" ∧ path.utf8ByteSize ≤ maxPathSize := by
  unfold checkPath
  split <;> rename_i zero
  · simpa using fun h => absurd (List.contains_iff_mem.1 zero) h
  split <;> rename_i empty
  · simp_all
  split <;> rename_i long
  · simpa using fun _ _ => long
  · simp_all

@[simp] theorem find?_put_self {t : FileTree} {place : Place} (h : place ≠ []) (node : FileNode) :
    (t.put place node).find? place = some node := by
  simp [find?, put, h]

theorem find?_put_of_ne {t : FileTree} {p q : Place} (h : q ≠ p) (node : FileNode) :
    (t.put p node).find? q = t.find? q := by
  have hb : (q == p) = false := by simpa using h
  simp [find?, put, List.lookup_cons, hb]

end FileTree

/-- The files of a tree. -/
instance : FileAccess (StateM FileTree) where
  isDirectory path := return (← get).isDirectory path
  isFile path := return (← get).isFile path
  canonical path := return ((← get).locate path).map FileTree.pathOf
  read path := return (← get).read path
  write path text := do
    match (← get).write path text with
    | .ok t => set t; return .ok ()
    | .error problem => return .error problem

end StackLang
