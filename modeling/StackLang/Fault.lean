import StackLang.Code
import StackLang.Error

/-!
# Faults

The ways in which an evaluation can stop short: an error of the script, a breach of the machine's
own rules, and the end of the fuel that bounds a run.  Only a script error is reported to the user
as such; a breach means that a body was not compiled by the rules.
-/

namespace StackLang

/-- A broken rule of the machine. -/
inductive Breach where
  /-- A finished body has a branch that leaves it. -/
  | strayTarget (word : String) (index : Nat) (target : Target)
  /-- A branch was taken that leaves the body. -/
  | branchOutside (target : Target) (word : String)
  /-- A body has no instruction where the next one should be. -/
  | ranOff (index : Nat) (word : String)
  /-- A word ends without the marker of its call. -/
  | lostMarker (word : String)
deriving DecidableEq

/-- The number that stands for a target.  An unknown one is the greatest number of 64 bits. -/
def Target.number (t : Target) : Nat :=
  t.getD (UInt64.size - 1)

def Breach.text : Breach → String
  | strayTarget word index target =>
    s!"{word}: instruction {index} of {word} branches to {target.number}, " ++
      "past the end of the body"
  | branchOutside target word =>
    s!"Branch target {target.number} is outside of the body of {word}."
  | ranOff index word => s!"Instruction pointer {index} ran off the end of {word}."
  | lostMarker word => s!"Return stack lost the call marker of {word}."

inductive Fault where
  | script (error : ScriptError)
  | breach (breach : Breach)
  | outOfFuel
deriving DecidableEq

namespace Fault

/-- The failure of something that is done outside of a script. -/
def ofCause (cause : Cause) : Fault :=
  script (.ofCause cause)

def text : Fault → String
  | script e => e.text
  | breach b => b.text
  | outOfFuel => "Evaluation stopped before its end."

def hint : Fault → String
  | script e => e.hint
  | breach _ => "A definition was not compiled as it should be."
  | outOfFuel => "It can be carried on."

end Fault

end StackLang
