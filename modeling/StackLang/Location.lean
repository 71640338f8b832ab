/-!
# Locations

Where in a source a token stands: a path or another name for the source, a line and a column, both
counted from one.  A column is one character, however many bytes the character has.

* `Location.advance_append`: passing over two texts is passing over one and then the other.
-/

namespace StackLang

structure Location where
  path : String
  line : Nat
  column : Nat
deriving Repr, DecidableEq

namespace Location

/-- The first character of a source. -/
def start (path : String) : Location :=
  ⟨path, 1, 1⟩

/-- The location used for words that run without having been read from a source. -/
def unspecified : Location :=
  start "unspecified"

/-- The location behind one character. -/
def after (l : Location) (c : Char) : Location :=
  if c = '\n' then { l with line := l.line + 1, column := 1 }
  else { l with column := l.column + 1 }

/-- The location behind a text. -/
def advance (l : Location) (cs : List Char) : Location :=
  cs.foldl after l

@[simp] theorem advance_nil (l : Location) : l.advance [] = l := rfl

@[simp] theorem advance_cons (l : Location) (c : Char) (cs : List Char) :
    l.advance (c :: cs) = (l.after c).advance cs := rfl

theorem advance_append (l : Location) (cs ds : List Char) :
    l.advance (cs ++ ds) = (l.advance cs).advance ds := by
  simp [advance]

/-- The location as messages show it. -/
def text (l : Location) : String :=
  l.path ++ " (" ++ toString l.line ++ ", " ++ toString l.column ++ ")"

end Location

end StackLang
