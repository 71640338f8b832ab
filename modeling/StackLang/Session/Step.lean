import StackLang.Word

/-!
# Steps

One step of an evaluation: an instruction of the word that is running, or else a token of the first
source.  A built-in word runs within its step; a compiled word only gets a frame, and the frame of
its caller goes to the return stack.  Sources that have been used up are dropped at the end of the
step, and it is an error if one ends inside a definition.

* `jump_inside`: a branch inside of the body moves the frame and nothing else.
-/

namespace StackLang

namespace Action

/-! ## Calls -/

/-- Tell the observers that a word has ended, and wait for them where the mode asks for it. -/
def finishWord (name : String) : Action Unit := do
  let s ← get
  notify (.complete name s.stack)
  if s.mode = .synchronized then notify (.acknowledge name)

/-- Run a built-in word. -/
def callBuiltin (name : String) (word : Builtin) : Action Unit := do
  modify fun s => { s with
    calls := ⟨name, s.location.getD .unspecified⟩ :: s.calls
    builtin := some name }
  word.run
  modify fun s => { s with calls := s.calls.tail, builtin := none }
  finishWord name

/-- Give a compiled word a frame, and put that of its caller aside. -/
def callCompiled (index : Nat) (name : String) (code : Code) : Action Unit := do
  let caller := (← get).frame
  modify ({ · with frame := none })
  pushReturn (.call caller)
  modify fun s => { s with
    calls := ⟨name, s.location.getD .unspecified⟩ :: s.calls
    frame := some ⟨index, name, code, 0⟩ }

/-- Call the word at an index of the dictionary. -/
def call (index : Nat) : Action Unit := do
  match (← get).dictionary.get? index with
  | none => raise (.unknownWord ("#" ++ toString index) [])
  | some entry =>
    notify (.starting entry.name entry.signature)
    match entry.body with
    | .builtin word => callBuiltin entry.name word
    | .compiled code => callCompiled index entry.name code

/-- Leave the running word with whatever it left on the return stack, and go on with its caller. -/
def leaveWord (frame : CallFrame) : Action Unit := do
  match (← get).returns.exitCall with
  | (none, _) => breach (.lostMarker frame.name)
  | (some caller, returns) =>
    modify fun s => { s with frame := caller, returns, calls := s.calls.tail }
    finishWord frame.name

/-! ## Instructions -/

/-- Go on at another instruction of the running word. -/
def jump (target : Target) : Action Unit := fun s =>
  match s.frame with
  | none => .ok () s
  | some frame =>
    match target with
    | some index =>
      if index < frame.code.size then
        .ok () { s with frame := some { frame with next := index } }
      else breach (.branchOutside target frame.name) s
    | none => breach (.branchOutside target frame.name) s

theorem jump_inside {s : Session} {frame : CallFrame} {index : Nat} (hf : s.frame = some frame)
    (hi : index < frame.code.size) :
    jump (some index) s = .ok () { s with frame := some { frame with next := index } } := by
  simp [jump, hf, hi]

/-- The start and the limit of a loop in the order that its direction needs. -/
def loopBounds (direction : LoopDirection) (start limit : Int64) : LoopFrame :=
  match direction with
  | .descending => if start < limit then ⟨limit, start⟩ else ⟨start, limit⟩
  | .ascending | .unknown => if limit < start then ⟨limit, start⟩ else ⟨start, limit⟩

/-- The index moved by a step.  It stops at the ends of the 64-bit range. -/
def stepIndex (index step : Int64) : Int64 :=
  Int64.ofInt
    (max Int64.minValue.toInt (min Int64.maxValue.toInt (index.toInt + step.toInt)))

/-- Does a loop go on?  Counting up it does below the limit, counting down above it. -/
def loopContinues (frame : LoopFrame) (step : Int64) : Bool :=
  if step < 0 then frame.limit < frame.index else frame.index < frame.limit

/-- Complain about a loop word without a loop. -/
def noLoop {α : Type} (word : String) : Action α :=
  raise (.unmatched word "DO")

/-- Step the innermost loop, and go back to its body or close it. -/
def advanceLoop (step : Int64) (target : Target) : Action Unit := do
  match (← get).returns.loop? 0 with
  | none => noLoop "LOOP"
  | some frame =>
    let frame := { frame with index := stepIndex frame.index step }
    if loopContinues frame step then
      modify fun s => { s with returns := s.returns.replaceLoop frame }
      jump target
    else
      modify fun s => { s with returns := (s.returns.popLoop?.map (·.2)).getD s.returns }

/-- Drop the innermost loop. -/
def closeLoop (word : String) : Action Unit := do
  match (← get).returns.popLoop? with
  | some (_, returns) => modify ({ · with returns })
  | none => noLoop word

/-- Take the start and the limit of a loop. -/
def popBounds (direction : LoopDirection) : Action LoopFrame := operands do
  .require 2
  let start ← .popInt
  let limit ← .popInt
  pure (loopBounds direction start limit)

/-- An operation on counted loops. -/
def runLoop (kind : LoopKind) (target : Target) : Action Unit := do
  match kind with
  | .start direction =>
    let frame ← popBounds direction
    pushReturn (.loop frame)
  | .startUnlessEqual direction =>
    let frame ← popBounds direction
    if frame.index = frame.limit then jump target else pushReturn (.loop frame)
  | .next => advanceLoop 1 target
  | .nextBy =>
    let step ← operands .popInt
    advanceLoop step target
  | .leave =>
    closeLoop "LEAVE"
    jump target
  | .unloop => closeLoop "UNLOOP"

/-- An operation of the running word, whose frame already stands at the next instruction. -/
def runOp (frame : CallFrame) : Op → Action Unit
  | .callBuiltin index | .callWord index => call index
  | .push v => push v
  | .branch target => jump target
  | .branchIfFalse target => do
    if !(← operands .popFlag) then jump target
  | .loop kind target => runLoop kind target
  | .loopIndex depth => do
    match (← get).returns.loop? depth with
    | some loop => push (.int loop.index)
    | none => noLoop (if depth = 0 then "I" else "J")
  | .exit => leaveWord frame
  | .recurse => call frame.word

/-- The next instruction of the running word. -/
def runInstruction (frame : CallFrame) : Action Unit := do
  match frame.code[frame.next]? with
  | none => breach (.ranOff frame.next frame.name)
  | some instruction =>
    modify fun s => { s with
      frame := some { frame with next := frame.next + 1 }
      location := instruction.location.or s.location }
    runOp frame instruction.op

/-! ## Tokens -/

/-- Push a value, or compile that it is pushed. -/
def literal (location : Location) (v : Value) : Action Unit := do
  if (← get).isCompiling then compile (some location) (.push v) else push v

/-- A string literal.  A text to be printed later is compiled as the text, its length and a call of
the word that prints them. -/
def stringLiteral (location : Location) (form : StringForm) (text : String) : Action Unit := do
  let length := Value.int (Int64.ofNat text.length)
  match form with
  | .display => print text
  | .push =>
    literal location (.string text)
    literal location length
  | .print =>
    if (← get).isCompiling then
      match (← get).dictionary.find? "TYPE" with
      | none => raise (.unknownWord "TYPE" [])
      | some (index, _) =>
        compile (some location) (.push (.string text))
        compile (some location) (.push length)
        compile (some location) (.callBuiltin index)
    else print text

/-- A word: run it, or compile a call to it. -/
def word (location : Location) (name : String) : Action Unit := do
  let (index, entry) ← lookup name
  let compiling := (← get).isCompiling
  if entry.compileOnly && !compiling then raise (.compileOnly entry.name)
  if compiling && !entry.immediate then
    compile (some location) (if entry.isBuiltin then .callBuiltin index else .callWord index)
  else call index

/-- What a token says. -/
def runLexeme (location : Location) : Lexeme → Action Unit
  | .number value => literal location (.ofNumber value)
  | .string form text => stringLiteral location form text
  | .word name => word location name

/-- Keep a token as it was written, if a definition is open. -/
def recordToken (token : Token) : Action Unit := do
  match (← get).definition? with
  | some d => setDefinition (some (d.record token.text))
  | none => pure ()

/-- A token of the source.  It belongs to the body of a definition that is open both before and
after it. -/
def runToken (token : Token) : Action Unit := do
  let inBody := (← get).isCompiling
  modify ({ · with location := some token.location })
  runLexeme token.location token.lexeme
  if inBody then recordToken token

/-! ## The end of a source -/

/-- The sources behind those at the front that are used up, or a definition that one of those
leaves open. -/
def unusedSources : List Pending → Except Definition (List Pending)
  | [] => .ok []
  | source :: rest =>
    if source.isExhausted then
      match source.definition with
      | some d => .error d
      | none => unusedSources rest
    else .ok (source :: rest)

/-- Drop the sources that have been used up, unless a word is still running. -/
def dropUsedSources : Action Unit := do
  let s ← get
  if s.frame.isNone then
    match unusedSources s.sources with
    | .ok sources => set { s with sources }
    | .error d =>
      set { s with location := some d.location }
      raise d.unclosed

/-! ## Steps -/

/-- One operation of the evaluation. -/
def operation : Action Unit := do
  match (← get).frame with
  | some frame => runInstruction frame
  | none =>
    match ← nextToken? with
    | some token => runToken token
    | none => pure ()

/-- One step of the evaluation.  It does nothing but fail if the evaluation was cancelled. -/
def step : Action Unit := do
  if (← get).cancelled then raise .cancelled
  operation
  dropUsedSources

end Action

end StackLang
