import StackLang.Error

/-!
# Operands

Taking operands from the data stack.  A word that needs several values asks for all of them before
it takes the first, so that it fails for lack of values with the stack untouched; a value of the
wrong kind is found when it has been taken.  The faults do not know which word asked; `cause` adds
its name.

* `atLeast_iff`: the check looks no further down the stack than it has to.
* `require_of_le`, `require_of_lt`: the check passes or fails without a change.
-/

namespace StackLang

/-- The data stack, the top first. -/
abbrev DataStack := List Value

/-- What can be wrong with the operands of a word. -/
inductive OperandFault where
  | underflow (needed available : Nat)
  | mismatch (expected found : String)
  | divisionByZero (dividend : Value)
  | invalidAddress (address : Int64)
deriving DecidableEq

/-- The fault as an error of the word that asked. -/
def OperandFault.cause (word : String) : OperandFault → Cause
  | underflow needed available => .stackUnderflow word needed available
  | mismatch expected found => .typeMismatch word expected found
  | divisionByZero dividend => .divisionByZero dividend
  | invalidAddress address => .invalidAddress word address

/-- A computation on the data stack. -/
abbrev Operand := EStateM OperandFault DataStack

/-- Does the stack hold at least `n` values? -/
def atLeast : (n : Nat) → DataStack → Bool
  | 0, _ => true
  | _ + 1, [] => false
  | n + 1, _ :: s => atLeast n s

theorem atLeast_iff {n : Nat} {s : DataStack} : atLeast n s = true ↔ n ≤ s.length := by
  induction n generalizing s with
  | zero => simp [atLeast]
  | succ n ih => cases s <;> simp [atLeast, ih]

namespace Operand

/-- Fail unless the stack holds at least `n` values. -/
def require (n : Nat) : Operand Unit := fun s =>
  if atLeast n s then .ok () s else .error (.underflow n s.length) s

theorem require_of_le {n : Nat} {s : DataStack} (h : n ≤ s.length) : require n s = .ok () s := by
  simp [require, atLeast_iff.2 h]

theorem require_of_lt {n : Nat} {s : DataStack} (h : s.length < n) :
    require n s = .error (.underflow n s.length) s := by
  have : atLeast n s ≠ true := fun ha => by
    have := atLeast_iff.1 ha
    omega
  simp [require, this]

def push (v : Value) : Operand Unit := fun s =>
  .ok () (v :: s)

/-- Take the top value. -/
def pop : Operand Value
  | [] => .error (.underflow 1 0) []
  | v :: s => .ok v s

@[simp] theorem push_eq (v : Value) (s : DataStack) : push v s = .ok () (v :: s) := rfl
@[simp] theorem pop_nil : pop [] = .error (.underflow 1 0) [] := rfl
@[simp] theorem pop_cons (v : Value) (s : DataStack) : pop (v :: s) = .ok v s := rfl

/-- The view of a value, or the complaint that something else was expected. -/
def expect {α : Type} (expected : String) (v : Value) : Option α → Operand α
  | some a => pure a
  | none => throw (.mismatch expected v.kind)

/-- The value as a number. -/
def number (v : Value) : Operand Number :=
  expect "number" v v.number?

/-- The value as an integer. -/
def int (v : Value) : Operand Int64 :=
  expect "integer" v v.int?

/-- Take the top value as an integer.  Flags and addresses convert. -/
def popInt : Operand Int64 := do
  let v ← pop
  int v

/-- Take the top value as a number of either kind. -/
def popNumber : Operand Number := do
  let v ← pop
  number v

/-- Take the top value as a flag. -/
def popFlag : Operand Bool := do
  let v ← pop
  expect "flag" v v.flag?

/-- Take the top value as text. -/
def popString : Operand String := do
  match ← pop with
  | .string s => pure s
  | v => throw (.mismatch "string" v.kind)

/-- Take the top value as an address.  An integer that is not negative is one, too. -/
def popAddress : Operand UInt64 := do
  match ← pop with
  | .address a => pure a
  | .int n => if n < 0 then throw (.invalidAddress n) else pure n.toUInt64
  | v => throw (.mismatch "address" v.kind)

/-- Take the two operands of a word, the second first in the pair. -/
def popPair : Operand (Value × Value) := do
  require 2
  let b ← pop
  let a ← pop
  pure (a, b)

/-- Take two numbers. -/
def popNumbers : Operand (Number × Number) := do
  let (a, b) ← popPair
  let m ← number a
  let n ← number b
  pure (m, n)

end Operand

end StackLang
