/-!
# Decimal numbers

A decimal number as its digits and the power of ten that they count, the value of a digit, and the
reading of digit strings in a base.  Number tokens are read through it and floats are printed
through it.

* `readNat_append_singleton`: one more digit multiplies by the base and adds the digit.
* `Decimal.toFloat`: the float nearest to a decimal number.
-/

namespace StackLang

/-- The number `digits · 10 ^ exponent`. -/
structure Decimal where
  digits : Nat
  exponent : Int
deriving Repr, DecidableEq

namespace Decimal

/-- The value of a digit in the given base, letters of either case counting on from ten. -/
def digit? (base : Nat) (c : Char) : Option Nat :=
  let value? :=
    if '0' ≤ c ∧ c ≤ '9' then some (c.toNat - '0'.toNat)
    else if 'a' ≤ c ∧ c ≤ 'z' then some (c.toNat - 'a'.toNat + 10)
    else if 'A' ≤ c ∧ c ≤ 'Z' then some (c.toNat - 'A'.toNat + 10)
    else none
  value?.filter (· < base)

/-- The value of a string of digits, which may be empty. -/
def readNat (base : Nat) (cs : List Char) : Option Nat :=
  cs.foldlM (fun n c => (digit? base c).map (base * n + ·)) 0

@[simp] theorem readNat_nil (base : Nat) : readNat base [] = some 0 := rfl

theorem readNat_append_singleton (base : Nat) (cs : List Char) (c : Char) :
    readNat base (cs ++ [c]) =
      (readNat base cs).bind fun n => (digit? base c).map (base * n + ·) := by
  simp [readNat, List.foldlM_append]

/-- The float nearest to the number.  Beyond the range of floats the answer is infinity or zero,
which the count of digits decides before any power of ten is computed. -/
def toFloat (d : Decimal) : Float :=
  let order := (Nat.toDigits 10 d.digits).length + d.exponent
  if d.digits = 0 ∨ order < -400 then 0.0
  else if order > 400 then 1.0 / 0.0
  else Float.ofScientific d.digits (d.exponent < 0) d.exponent.natAbs

end Decimal

end StackLang
