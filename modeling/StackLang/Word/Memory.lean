import StackLang.Session.Action
import StackLang.Word.Math

/-!
# Words on memory cells and on the return stack

Fetching, storing and reserving cells, and moving values to the return stack and back.  An address
is checked before anything is written.
-/

namespace StackLang

open StackLang.Action

namespace MemoryWord

/-- Complain about an address that has no cell. -/
def noCell {α : Type} (address : UInt64) : Action α := fun s =>
  raise (.invalidAddress s.currentWord address.toInt64) s

/-- The value of a cell. -/
def fetchCell (address : UInt64) : Action Value := fun s =>
  match s.cells.fetch? address.toNat with
  | some v => .ok v s
  | none => noCell address s

/-- Write a cell. -/
def storeCell (address : UInt64) (v : Value) : Action Unit := fun s =>
  if s.cells.holds address.toNat then .ok () { s with cells := s.cells.put address.toNat v }
  else noCell address s

def run : MemoryWord → Action Unit
  | .fetch => do
    let address ← operands .popAddress
    push (← fetchCell address)
  | .store => do
    let (address, v) ← operands do
      .require 2
      let address ← .popAddress
      let v ← .pop
      pure (address, v)
    storeCell address v
  | .addTo => do
    let (address, increment) ← operands do
      .require 2
      let address ← .popAddress
      let increment ← .popNumber
      pure (address, increment)
    let current ← fetchCell address
    let n ← operands (.number current)
    storeCell address (Operand.combine (· + ·) (· + ·) n increment)
  | .cells => do
    let count ← operands .popInt
    push (.int count)
  | .allot => do
    let count ← operands do
      let n ← .popInt
      if n < 0 then throw (.mismatch "a non-negative cell count" (toString n.toInt))
      pure n.toInt.toNat
    discard (Action.allot count)
  | .here => do
    push (.address (UInt64.ofNat (← get).cells.here))

end MemoryWord

namespace ReturnWord

/-- Complain that no value lies on the return stack. -/
def noValue {α : Type} : Action α :=
  operands (throw (.underflow 1 0))

def run : ReturnWord → Action Unit
  | .toReturn => do
    let v ← operands .pop
    pushReturn (.value v)
  | .fromReturn => do
    match (← get).returns.popValue? with
    | some (v, returns) =>
      modify ({ · with returns })
      push v
    | none => noValue
  | .copyReturn => do
    match (← get).returns.peekValue? with
    | some v => push v
    | none => noValue

end ReturnWord

end StackLang
