/-!
# Texts in columns

A text set flush left or flush right in a column of a given width, which counts characters.  A
text that is too long for its column is written in full.
-/

namespace StackLang.Text

/-- The text followed by blanks up to the width. -/
def flushLeft (width : Nat) (s : String) : String :=
  s ++ "".pushn ' ' (width - s.length)

/-- The text after as many blanks as the width leaves. -/
def flushRight (width : Nat) (s : String) : String :=
  "".pushn ' ' (width - s.length) ++ s

end StackLang.Text
