import StackLang.Session.Action

/-!
# Words that build the body of a definition

Each control word is a step of building the open definition, at the place of the word in its
source.
-/

namespace StackLang.ControlWord

open Definition

/-- The step of building that a control word takes. -/
def compileStep (location : Option Location) : ControlWord → Edit Unit
  | openIf => compileIf location
  | openElse => compileElse location
  | closeThen => compileThen
  | openBegin => compileBegin
  | closeUntil => compileUntil location
  | closeAgain => compileAgain location
  | openWhile => compileWhile location
  | closeRepeat => compileRepeat location
  | openDo => compileDo location false
  | openQueryDo => compileDo location true
  | closeLoop => compileLoop location false
  | closePlusLoop => compileLoop location true
  | index => compileLoopIndex location "I" 0
  | outerIndex => compileLoopIndex location "J" 1
  | leave => compileLeave location
  | unloop => compileUnloop location
  | exit => discard (emit location .exit)
  | recurse => discard (emit location .recurse)

def run (w : ControlWord) : Action Unit := do
  Action.edit (w.compileStep (← get).location)

end StackLang.ControlWord
