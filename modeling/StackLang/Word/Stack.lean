import StackLang.Builtin
import StackLang.Operand

/-!
# Words that rearrange the data stack

Each word by what it does to the values on top.  The stack is a list with the top first, so
`a b c` in a word's signature is `c :: b :: a`.
-/

namespace StackLang

/-- Take the position that `PICK` and `ROLL` count down from the top. -/
def Operand.popPosition : Operand Nat := do
  let n ← popInt
  if n < 0 then throw (.mismatch "a non-negative stack position" (toString n.toInt))
  pure n.toInt.toNat

namespace StackWord

open Operand

def run : StackWord → Operand Unit
  | dup => do
    let a ← pop
    push a
    push a
  | drop => discard pop
  | swap => do
    let (a, b) ← popPair
    push b
    push a
  | copySecond => do
    let (a, b) ← popPair
    push a
    push b
    push a
  | rot => do
    require 3
    let c ← pop
    let b ← pop
    let a ← pop
    push b
    push c
    push a
  | rotBack => do
    require 3
    let c ← pop
    let b ← pop
    let a ← pop
    push c
    push a
    push b
  | nip => do
    let (_, b) ← popPair
    push b
  | tuck => do
    let (a, b) ← popPair
    push b
    push a
    push b
  | dupPair => do
    require 2
    modify fun s => s.take 2 ++ s
  | dropPair => do
    require 2
    modify (·.drop 2)
  | swapPair => do
    require 4
    modify fun s => (s.drop 2).take 2 ++ s.take 2 ++ s.drop 4
  | overPair => do
    require 4
    modify fun s => (s.drop 2).take 2 ++ s
  | depth => do
    push (.int (Int64.ofNat (← get).length))
  | pick => do
    let position ← popPosition
    require (position + 1)
    modify fun s => s[position]?.toList ++ s
  | roll => do
    let position ← popPosition
    if position = 0 then return
    require (position + 1)
    modify fun s => s[position]?.toList ++ s.eraseIdx position
  | clear => set ([] : DataStack)
  | dupNonzero => do
    require 1
    modify fun s => (s.head?.filter fun v => v.flag? != some false).toList ++ s

end StackWord

end StackLang
