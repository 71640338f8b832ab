import StackLang.CommandLine
import StackLang.Files.Tree

/-!
# Transcripts

A run of the command line over files held in memory, with its input known in advance and its
outputs kept.

* `print_eq`, `complain_eq`: each output is the texts written to it, one after the other.
-/

namespace StackLang

structure Transcript where
  files : FileTree
  /-- What is left of the input. -/
  input : String
  printed : String
  complaints : String

namespace Transcript

/-- Run an operation on the files. -/
def onFiles {α : Type} (p : StateM FileTree α) : StateM Transcript α := fun t =>
  let (a, files) := p t.files
  (a, { t with files := files })

instance : Console (StateM Transcript) where
  isDirectory path := onFiles (FileAccess.isDirectory path)
  isFile path := onFiles (FileAccess.isFile path)
  canonical path := onFiles (FileAccess.canonical path)
  read path := onFiles (FileAccess.read path)
  write path text := onFiles (FileAccess.write path text)
  print text := modify fun t => { t with printed := t.printed ++ text }
  complain text := modify fun t => { t with complaints := t.complaints ++ text }
  foldLines step s := do
    let input := (← get).input
    modify fun t => { t with input := "" }
    return .ok (← (Text.lines input).foldlM step s)

theorem print_eq (t : Transcript) (text : String) :
    (Console.print text : StateM Transcript Unit) t =
      ((), { t with printed := t.printed ++ text }) := rfl

theorem complain_eq (t : Transcript) (text : String) :
    (Console.complain text : StateM Transcript Unit) t =
      ((), { t with complaints := t.complaints ++ text }) := rfl

end Transcript

end StackLang
