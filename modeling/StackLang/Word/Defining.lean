import StackLang.Session.Action

/-!
# Words that change the dictionary

A definition reserves its entry when it is opened and fills it in when it is closed, so the body
can refer to its own word while older words of the same name can still be found.  Constants and
variables are words whose whole body pushes one value.
-/

namespace StackLang.DefiningWord

open StackLang.Action

/-- The entry of a word that pushes a value. -/
def valueEntry (location : Location) (name : String) (v : Value) (signature : String)
    (origin : Origin) : Entry :=
  { Entry.ofBody (some location) name (.compiled #[⟨some location, .push v⟩, ⟨none, .exit⟩]) with
    signature := signature
    origin := some origin }

/-- Open a definition, with a hidden entry reserved for it. -/
def openDefinition : Action Unit := do
  if (← get).isCompiling then raise (.unmatched ":" ";")
  discard currentSource
  let (location, name) ← nextName
  let entry := { Entry.ofBody (some location) name (.compiled #[]) with visible := false }
  let index ← define entry
  discard currentSource
  setDefinition (some (.opened index entry.name location))

/-- Close the open definition and fill in its entry. -/
def closeDefinition : Action Unit := do
  match ← edit Definition.finish with
  | .error b => breach b
  | .ok code =>
    let d ← currentDefinition
    setDefinition none
    modify fun s => { s with
      dictionary := s.dictionary.modify d.word fun e => { e with
        body := .compiled code
        visible := true
        origin := some (.colon d.source) } }

/-- Make a word immediate: the one that is being defined, else the newest that is not built in. -/
def makeImmediate : Action Unit := do
  let s ← get
  match (s.definition?.map (·.word)).or s.dictionary.latestUserWord? with
  | some index =>
    modify fun s => { s with
      dictionary := s.dictionary.modify index fun e => { e with immediate := true } }
  | none => raise (.typeMismatch s.currentWord "a user defined word" "only built-in words")

/-- Drop a word and everything that was defined after it. -/
def forgetWord : Action Unit := do
  let (_, name) ← nextName
  let (index, entry) ← lookup name
  if entry.isBuiltin then
    raise (.typeMismatch (← get).currentWord "a user defined word"
      ("built-in word " ++ entry.name))
  modify fun s => { s with dictionary := s.dictionary.forgetBackTo index }

def run : DefiningWord → Action Unit
  | colon => openDefinition
  | semicolon => closeDefinition
  | constant => do
    operands (.require 1)
    let (location, name) ← nextName
    let v ← operands .pop
    discard (define (valueEntry location name v " -- value" (.constant v)))
  | «variable» => do
    let (location, name) ← nextName
    let address ← allot 1
    discard (define (valueEntry location name (.address (UInt64.ofNat address)) " -- address"
      (.variable address)))
  | immediate => makeImmediate
  | forget => forgetWord
  | reset => modify Session.resetDefinitions

end StackLang.DefiningWord
