import StackLang.Decimal.Shortest

/-!
# Floats as text

A float is written with its shortest digits.  A `Layout` says which sizes are written positionally
and how the special values read; the other sizes are written as a coefficient, `e` and a power of
ten.  A positional number keeps at least one digit after the point.
-/

namespace StackLang.Decimal

/-- The conventions of a text form of floats. -/
structure Layout where
  /-- The least power of ten of a leading digit that is written positionally. -/
  leastPositional : Int
  /-- The greatest power of ten of a leading digit that is written positionally. -/
  greatestPositional : Int
  notANumber : String
  infinity : String

/-- The power of ten of the leading digit. -/
def order (d : Decimal) : Int :=
  (Nat.toDigits 10 d.digits).length - 1 + d.exponent

/-- The digits with the point in its place. -/
def positional (d : Decimal) : String :=
  let digits := Nat.toDigits 10 d.digits
  let text :=
    if 0 ≤ d.exponent then digits ++ List.replicate d.exponent.toNat '0' ++ ['.', '0']
    else if 0 ≤ d.order then
      digits.take (d.order.toNat + 1) ++ '.' :: digits.drop (d.order.toNat + 1)
    else ['0', '.'] ++ List.replicate (-d.order - 1).toNat '0' ++ digits
  String.ofList text

/-- A coefficient with one digit before the point, and the power of ten.  A coefficient of one
digit has no point. -/
def scientific (d : Decimal) : String :=
  let coefficient := match Nat.toDigits 10 d.digits with
    | lead :: second :: rest => lead :: '.' :: second :: rest
    | digits => digits
  String.ofList coefficient ++ "e" ++ toString d.order

/-- The text of a positive decimal number. -/
def Layout.writeDecimal (l : Layout) (d : Decimal) : String :=
  if l.leastPositional ≤ d.order ∧ d.order ≤ l.greatestPositional then d.positional
  else d.scientific

/-- The text of a float.  The sign of zero is written, that of a value that is not a number is
not. -/
def Layout.write (l : Layout) (x : Float) : String :=
  if x.isNaN then l.notANumber
  else
    let sign := if x.toBits >>> 63 = 1 then "-" else ""
    if x.isInf then sign ++ l.infinity
    else if x == 0.0 then sign ++ "0.0"
    else sign ++ l.writeDecimal (Dyadic.ofBits x.toBits).shortest

end StackLang.Decimal
