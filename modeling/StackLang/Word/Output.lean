import StackLang.Dictionary.Listing
import StackLang.Session.Action

/-!
# Words that print
-/

namespace StackLang.OutputWord

open StackLang.Action

/-- The whole stack in one line, the bottom first. -/
def stackText (stack : DataStack) : String :=
  if stack.isEmpty then "<empty> "
  else s!"<{stack.length}> " ++ " ".intercalate (stack.reverse.map Value.text) ++ " "

/-- The character with a code point, if there is one. -/
def character? (n : Int64) : Option Char :=
  if h : 0 ≤ n.toInt ∧ Nat.isValidChar n.toInt.toNat then
    some (Char.ofNatAux n.toInt.toNat h.2)
  else none

def run : OutputWord → Action Unit
  | .print => do
    let v ← operands .pop
    Action.print (v.text ++ " ")
  | printStack => do
    Action.print (stackText (← get).stack)
  | newLine => Action.print "\n"
  | space => Action.print " "
  | spaces => do
    let count ← operands .popInt
    Action.print ("".pushn ' ' count.toInt.toNat)
  | emit => do
    let v ← operands .pop
    match v.int?.bind character? with
    | some c => Action.print c.toString
    | none => operands (throw (.mismatch "a character code" v.kind))
  | type => do
    let (count, text) ← operands do
      .require 2
      let count ← .popInt
      let text ← .popString
      pure (count, text)
    Action.print (String.ofList (text.toList.take count.toInt.toNat))
  | words => do
    Action.print (← get).dictionary.listing
  | see => do
    let (_, name) ← nextName
    let (_, entry) ← lookup name
    Action.print ((← get).dictionary.describe entry)

end StackLang.OutputWord
