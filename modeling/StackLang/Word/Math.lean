import StackLang.Builtin
import StackLang.Operand

/-!
# Arithmetic, comparison and bits

Integers wrap at 64 bits and stay integers; as soon as one operand is a float the result is a
float.  Division rounds towards minus infinity, and the remainder has the sign of the divisor.  It
is done at double width, where a product of two integers fits, too.
-/

namespace StackLang

/-! ## Integers -/

/-- Integers of double width. -/
abbrev Wide := BitVec 128

/-- An integer at double width. -/
def widen (n : Int64) : Wide :=
  n.toBitVec.signExtend 128

/-- The low half of an integer of double width. -/
def narrow (n : Wide) : Int64 :=
  .ofBitVec (n.setWidth 64)

/-- The quotient, rounded towards minus infinity, and the remainder, with the sign of the divisor.
The machine rounds towards zero, so a remainder of the other sign needs a correction. -/
def flooredDivMod (a b : Wide) : Wide × Wide :=
  let quotient := a.sdiv b
  let remainder := a.srem b
  if remainder ≠ 0 ∧ remainder.slt 0 ≠ b.slt 0 then (quotient - 1, remainder + b)
  else (quotient, remainder)

/-- The quotient of two integers, rounded towards minus infinity. -/
def flooredQuotient (a b : Int64) : Int64 :=
  narrow (flooredDivMod (widen a) (widen b)).1

/-- The remainder of the floored division. -/
def flooredRemainder (a b : Int64) : Int64 :=
  narrow (flooredDivMod (widen a) (widen b)).2

/-- The product of two integers at double width. -/
def wideProduct (a b : Int64) : Wide :=
  widen a * widen b

/-- A shift of the 64 bits of an integer.  A count outside of the word clears it. -/
def shiftBits (op : UInt64 → UInt64 → UInt64) (n count : Int64) : Int64 :=
  if 0 ≤ count ∧ count < 64 then (op n.toUInt64 count.toUInt64).toInt64 else 0

/-! ## Floats -/

/-- The remainder that belongs to the floored quotient of two floats. -/
def floatRemainder (a b : Float) : Float :=
  a - b * (a / b).floor

/-- The smaller float.  A value that is not a number is passed over. -/
def floatMin (a b : Float) : Float :=
  if a.isNaN then b else if b.isNaN then a else if b < a then b else a

/-- The larger float.  A value that is not a number is passed over. -/
def floatMax (a b : Float) : Float :=
  if a.isNaN then b else if b.isNaN then a else if a < b then b else a

/-- How two floats compare, if they do. -/
def compareFloat? (a b : Float) : Option Ordering :=
  if a < b then some .lt else if a == b then some .eq else if b < a then some .gt else none

/-- How two numbers compare, if they do. -/
def Number.compare? : Number → Number → Option Ordering
  | .int m, .int n => some (compare m.toInt n.toInt)
  | m, n => compareFloat? m.toFloat n.toFloat

/-! ## Operations on the stack -/

namespace Operand

/-- The result of an operation on two numbers. -/
def combine (ofInt : Int64 → Int64 → Int64) (ofFloat : Float → Float → Float) :
    Number → Number → Value
  | .int m, .int n => .int (ofInt m n)
  | m, n => .float (ofFloat m.toFloat n.toFloat)

/-- Replace two numbers by the result of an operation. -/
def binary (ofInt : Int64 → Int64 → Int64) (ofFloat : Float → Float → Float) : Operand Unit := do
  let (m, n) ← popNumbers
  push (combine ofInt ofFloat m n)

/-- Replace a number by the result of an operation. -/
def unary (ofInt : Int64 → Int64) (ofFloat : Float → Float) : Operand Unit := do
  match ← popNumber with
  | .int n => push (.int (ofInt n))
  | .float x => push (.float (ofFloat x))

/-- The address at a distance from another one. -/
def offsetAddress (a : UInt64) (offset : Int64) : Operand Unit := do
  let target := a.toInt64 + offset
  if target < 0 then throw (.invalidAddress target)
  push (.address target.toUInt64)

/-- Take the operands of a division.  The divisor must not be zero. -/
def popDivision : Operand (Number × Number) := do
  let (m, n) ← popNumbers
  if n.isZero then throw (.divisionByZero (.ofNumber m))
  pure (m, n)

/-- Replace two numbers by a flag for how they compare. -/
def comparison (test : Ordering → Bool) : Operand Unit := do
  let (m, n) ← popNumbers
  push (.flag ((m.compare? n).any test))

/-- Replace a number by a flag for how it compares with zero. -/
def zeroComparison (test : Ordering → Bool) : Operand Unit := do
  let n ← popNumber
  push (.flag ((n.compare? (.int 0)).any test))

def isFlag : Value → Bool
  | .flag _ => true
  | _ => false

/-- Replace two integers by the result of an operation on their bits.  Two flags give a flag. -/
def bitwise (op : Int64 → Int64 → Int64) : Operand Unit := do
  let (a, b) ← popPair
  let m ← int a
  let n ← int b
  push (if isFlag a && isFlag b then .flag (op m n != 0) else .int (op m n))

/-- Shift an integer by a count. -/
def shift (op : UInt64 → UInt64 → UInt64) : Operand Unit := do
  let (a, b) ← popPair
  let n ← int a
  let count ← int b
  push (.int (shiftBits op n count))

end Operand

namespace MathWord

open Operand

def run : MathWord → Operand Unit
  | add => do
    match ← popPair with
    | (.address a, .int n) | (.int n, .address a) => offsetAddress a n
    | (a, b) =>
      let m ← number a
      let n ← number b
      push (combine (· + ·) (· + ·) m n)
  | subtract => do
    match ← popPair with
    | (.address a, .int n) => offsetAddress a (-n)
    | (a, b) =>
      let m ← number a
      let n ← number b
      push (combine (· - ·) (· - ·) m n)
  | multiply => binary (· * ·) (· * ·)
  | divide => do
    let (m, n) ← popDivision
    push (combine flooredQuotient (· / ·) m n)
  | mod => do
    let (m, n) ← popDivision
    push (combine flooredRemainder floatRemainder m n)
  | divMod => do
    let (m, n) ← popDivision
    push (combine flooredRemainder floatRemainder m n)
    push (combine flooredQuotient (fun a b => (a / b).floor) m n)
  | scale => do
    require 3
    let divisor ← popNumber
    match ← popNumbers, divisor with
    | (.int a, .int b), .int c =>
      let product := wideProduct a b
      if c = 0 then throw (.divisionByZero (.int (narrow product)))
      push (.int (narrow (flooredDivMod product (widen c)).1))
    | (a, b), c =>
      let product := a.toFloat * b.toFloat
      if c.isZero then throw (.divisionByZero (.float product))
      push (.float (product / c.toFloat))
  | negate => unary (- ·) (- ·)
  | abs => unary (fun n => if n < 0 then -n else n) Float.abs
  | min => binary (fun m n => if m < n then m else n) floatMin
  | max => binary (fun m n => if n < m then m else n) floatMax
  | increment => unary (· + 1) (· + 1)
  | decrement => unary (· - 1) (· - 1)
  | addTwo => unary (· + 2) (· + 2)
  | subtractTwo => unary (· - 2) (· - 2)
  | double => unary (· * 2) (· * 2)
  | halve => unary (· >>> 1) (· / 2)
  | equal => do
    let (a, b) ← popPair
    push (.flag (a.equal b))
  | notEqual => do
    let (a, b) ← popPair
    push (.flag (!a.equal b))
  | less => comparison (·.isLT)
  | greater => comparison (·.isGT)
  | lessEqual => comparison (·.isLE)
  | greaterEqual => comparison (·.isGE)
  | zeroEqual => zeroComparison (·.isEq)
  | zeroLess => zeroComparison (·.isLT)
  | zeroGreater => zeroComparison (·.isGT)
  | zeroNotEqual => zeroComparison (·.isNe)
  | and => bitwise (· &&& ·)
  | or => bitwise (· ||| ·)
  | xor => bitwise (· ^^^ ·)
  | invert => do
    match ← pop with
    | .flag b => push (.flag !b)
    | v =>
      let n ← int v
      push (.int (~~~n))
  | shiftLeft => shift (· <<< ·)
  | shiftRight => shift (· >>> ·)
  | pushTrue => push (.flag true)
  | pushFalse => push (.flag false)
  | not => do
    let b ← popFlag
    push (.flag !b)

end MathWord

end StackLang
