import StackLang.Location

/-!
# Cursors

A place in a source: the characters still to be read and the location of the first of them.

* `Cursor.dropWhile_rest`: passing over a class of characters leaves the rest of the source.
* `Cursor.length_next?`: reading a character leaves one character less.
-/

namespace StackLang

structure Cursor where
  rest : List Char
  location : Location
deriving Repr, DecidableEq

namespace Cursor

/-- The start of a source. -/
def ofSource (path source : String) : Cursor :=
  ⟨source.toList, .start path⟩

/-- Has everything been read? -/
def atEnd (c : Cursor) : Bool :=
  c.rest.isEmpty

/-- The next character. -/
def peek? (c : Cursor) : Option Char :=
  c.rest.head?

/-- The character after the next one. -/
def peekSecond? (c : Cursor) : Option Char :=
  c.rest[1]?

/-- The next character and the place behind it. -/
def next? (c : Cursor) : Option (Char × Cursor) :=
  match c.rest with
  | [] => none
  | d :: rest => some (d, ⟨rest, c.location.after d⟩)

/-- The place behind all the characters of a class that come next. -/
def dropWhile (p : Char → Bool) (c : Cursor) : Cursor :=
  ⟨c.rest.dropWhile p, c.location.advance (c.rest.takeWhile p)⟩

@[simp] theorem dropWhile_rest (p : Char → Bool) (c : Cursor) :
    (c.dropWhile p).rest = c.rest.dropWhile p := rfl

theorem length_next? {c d : Cursor} {a : Char} (h : c.next? = some (a, d)) :
    c.rest.length = d.rest.length + 1 := by
  unfold next? at h
  split at h
  · cases h
  · rename_i hc
    cases h
    simp [hc]

end Cursor

end StackLang
