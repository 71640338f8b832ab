import StackLang.Session

/-!
# Sessions as source

The words that a session has defined, written so that evaluating the text defines them again: one
definition after the other, and every variable with a store of its present value.
-/

namespace StackLang

/-- The source of an entry, given the memory that its variable lies in. -/
def Entry.source? (cells : CellStore) (e : Entry) : Option String :=
  e.origin.map fun
    | .colon body =>
      ": " ++ e.name ++ " " ++ body ++ " ;" ++ if e.immediate then " IMMEDIATE" else ""
    | .constant v => v.source ++ " CONSTANT " ++ e.name
    | .variable address =>
      "VARIABLE " ++ e.name ++ match cells.fetch? address with
        | some v => " " ++ v.source ++ " " ++ e.name ++ " !"
        | none => ""

namespace Session

/-- The sources of the visible words defined since the mark, in the order of their definition. -/
def savedWords (s : Session) : List String :=
  (s.dictionary.visibleSince s.sessionMark).filterMap (Entry.source? s.cells)

/-- Source text that defines the words made since the mark again, one to a line. -/
def source (s : Session) : String :=
  String.join (s.savedWords.map (· ++ "\n"))

end Session

end StackLang
