import StackLang.Session

/-!
# Actions

What a word may do to the session it runs in.  An action that fails keeps what it has done so far;
only the step that it was part of decides what is dropped.

* `operands_ok`, `operands_error`: work on the data stack leaves the rest of the session alone.
-/

namespace StackLang

/-- A change of the session, with a result or a fault. -/
abbrev Action := EStateM Fault Session

namespace Action

/-- Fail with an error at the present place. -/
def raise {α : Type} (cause : Cause) : Action α := fun s =>
  .error (.script (s.error cause)) s

/-- Stop because a rule of the machine is broken. -/
def breach {α : Type} (b : Breach) : Action α := fun s =>
  .error (.breach b) s

/-- Work on the data stack in the name of the word that is running. -/
def operands {α : Type} (p : Operand α) : Action α := fun s =>
  match p s.stack with
  | .ok a stack => .ok a { s with stack }
  | .error fault stack => .error (.script (s.error (fault.cause s.currentWord))) { s with stack }

theorem operands_ok {α : Type} {p : Operand α} {s : Session} {a : α} {stack : DataStack}
    (h : p s.stack = .ok a stack) : operands p s = .ok a { s with stack } := by
  simp [operands, h]

theorem operands_error {α : Type} {p : Operand α} {s : Session} {fault : OperandFault}
    {stack : DataStack} (h : p s.stack = .error fault stack) :
    operands p s =
      .error (.script (s.error (fault.cause s.currentWord))) { s with stack } := by
  simp [operands, h]

def push (v : Value) : Action Unit :=
  operands (.push v)

/-- Tell the observers. -/
def notify (e : Event) : Action Unit :=
  modify fun s => { s with observers := s.observers.record e }

/-- Print a text. -/
def print (text : String) : Action Unit :=
  modify fun s =>
    { s with output := s.output ++ text, observers := s.observers.record (.output text) }

/-- Put an item on the return stack. -/
def pushReturn (item : ReturnItem) : Action Unit := fun s =>
  match s.returns.push? item with
  | some returns => .ok () { s with returns }
  | none => raise (.returnStackOverflow s.returns.limit) s

/-! ## The source -/

/-- Take the next token of the first source. -/
def nextToken? : Action (Option Token) := fun s =>
  match s.sources with
  | [] => .ok none s
  | source :: rest =>
    match source.nextToken? with
    | some (token, source) => .ok (some token) { s with sources := source :: rest }
    | none => .ok none s

/-- Take the next token as a name to be defined or looked up, with its place. -/
def nextName : Action (Location × String) := do
  match ← nextToken? with
  | some token =>
    match token.name? with
    | some name => pure (token.location, name)
    | none => raise (.missingName (← get).currentWord)
  | none => raise (.missingName (← get).currentWord)

/-- The first source.  A word that needs one is meaningless without it. -/
def currentSource : Action Pending := fun s =>
  match s.sources with
  | source :: _ => .ok source s
  | [] => raise (.compileOnly s.currentWord) s

/-- Open a definition in the first source, or close the one that is open. -/
def setDefinition (definition : Option Definition) : Action Unit :=
  modify fun s =>
    match s.sources with
    | source :: rest => { s with sources := { source with definition } :: rest }
    | [] => s

/-- The open definition.  A word that needs one is meaningless without it. -/
def currentDefinition : Action Definition := fun s =>
  match s.definition? with
  | some d => .ok d s
  | none => raise (.compileOnly s.currentWord) s

/-- Work on the open definition. -/
def edit {α : Type} (p : Definition.Edit α) : Action α := do
  let d ← currentDefinition
  match p d with
  | .ok a d =>
    setDefinition (some d)
    pure a
  | .error cause d =>
    setDefinition (some d)
    raise cause

/-- Append an instruction to the open definition. -/
def compile (location : Option Location) (op : Op) : Action Unit :=
  discard (edit (Definition.emit location op))

/-! ## Memory and dictionary -/

/-- Reserve memory cells and give the address of the first. -/
def allot (count : Nat) : Action Nat := fun s =>
  match s.cells.allot? count with
  | some (address, cells) => .ok address { s with cells }
  | none => raise (.memoryExhausted s.currentWord count s.cells.available) s

/-- Append an entry to the dictionary and give its index. -/
def define (e : Entry) : Action Nat :=
  modifyGet fun s => ((s.dictionary.insert e).1, { s with dictionary := (s.dictionary.insert e).2 })

/-- What a name means, and an error if it means nothing. -/
def lookup (name : String) : Action (Nat × Entry) := fun s =>
  match s.dictionary.find? name with
  | some found => .ok found s
  | none => raise (.unknownWord name (s.dictionary.suggest name)) s

end Action

end StackLang
