import StackLang.Location
import StackLang.Value

/-!
# Compiled code

The body of a compiled word is an array of instructions.  Calls name words by their index in the
dictionary, branches name instructions of the same body by their index.

* `target?_setTarget`: patching an operation that has a target gives it the new target.
-/

namespace StackLang

/-- Which way a counted loop is known to run. -/
inductive LoopDirection where
  /-- Closed by `LOOP`, or by `+LOOP` right after a literal step that is not negative. -/
  | ascending
  /-- Closed by `+LOOP` right after a negative literal step. -/
  | descending
  /-- The step is computed at run time. -/
  | unknown
deriving Repr, DecidableEq

/-- The operations on counted loops. -/
inductive LoopKind where
  /-- Pop the start and the limit and open a loop; the target is the instruction behind the loop. -/
  | start (direction : LoopDirection)
  /-- Like `start`, but skip the loop when the start equals the limit. -/
  | startUnlessEqual (direction : LoopDirection)
  /-- Step the index by one; the target is the first instruction of the body. -/
  | next
  /-- Step the index by the popped value; the target is the first instruction of the body. -/
  | nextBy
  /-- Close the innermost loop and go to the target behind it. -/
  | leave
  /-- Close the innermost loop and go on. -/
  | unloop
deriving Repr, DecidableEq

/-- The index of an instruction, or `none` for a branch whose destination is not known yet. -/
abbrev Target := Option Nat

inductive Op where
  /-- Call a built-in word. -/
  | callBuiltin (index : Nat)
  /-- Call a compiled word. -/
  | callWord (index : Nat)
  | push (value : Value)
  | branch (target : Target)
  /-- Pop a flag and branch if it is false. -/
  | branchIfFalse (target : Target)
  | loop (kind : LoopKind) (target : Target)
  /-- Push the index of the loop that is `depth` loops further out than the innermost one. -/
  | loopIndex (depth : Nat)
  /-- Return from the word. -/
  | exit
  /-- Call the word that is running. -/
  | recurse
deriving DecidableEq

/-- The target of an operation that has one. -/
def Op.target? : Op → Option Target
  | branch t | branchIfFalse t | loop _ t => some t
  | _ => none

/-- The operation with another target.  One without a target stays as it is. -/
def Op.setTarget (new : Target) : Op → Op
  | branch _ => branch new
  | branchIfFalse _ => branchIfFalse new
  | loop kind _ => loop kind new
  | op => op

@[simp] theorem Op.target?_setTarget (new : Target) (op : Op) :
    (op.setTarget new).target? = op.target?.map fun _ => new := by
  cases op <;> rfl

/-- An operation and the place in the source that it was compiled from, if there is one. -/
structure Instruction where
  location : Option Location
  op : Op
deriving DecidableEq

abbrev Code := Array Instruction

/-! ## Listings -/

/-- The word that compiles the operation. -/
def LoopKind.word : LoopKind → String
  | start _ => "DO"
  | startUnlessEqual _ => "?DO"
  | next => "LOOP"
  | nextBy => "+LOOP"
  | leave => "LEAVE"
  | unloop => "UNLOOP"

def Target.text : Target → String
  | some index => toString index
  | none => "?"

/-- The operation as a listing shows it. -/
def Op.text : Op → String
  | callBuiltin index => "CallPrimitive     " ++ toString index
  | callWord index => "CallWord          " ++ toString index
  | push value => "PushLiteral       " ++ value.described
  | branch target => "Branch            " ++ target.text
  | branchIfFalse target => "BranchIfFalse     " ++ target.text
  | loop kind target => "LoopMarker " ++ kind.word ++ " " ++ target.text
  | loopIndex depth => "PushLoopIndex     " ++ toString depth
  | exit => "Exit"
  | recurse => "Recurse"

end StackLang
