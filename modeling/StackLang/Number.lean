import StackLang.Decimal.Layout

/-!
# Numbers

A number token is a signed 64-bit integer or a float.  Integers are decimal, or hexadecimal after
`$`, `0x` or `0X`; a decimal integer that does not fit is read as a float, a hexadecimal one is no
number.  Every other spelling is left to the dictionary, so `1+` and `e5` can name words.

* `read?_eq_none_of_bare_sign`: a sign alone is a word.
-/

namespace StackLang

inductive Number where
  | int (n : Int64)
  | float (x : Float)
deriving DecidableEq

namespace Number

/-- Floats are positional from one ten-thousandth up to below ten to the sixteenth. -/
def layout : Decimal.Layout where
  leastPositional := -4
  greatestPositional := 15
  notANumber := "NaN"
  infinity := "inf"

/-- The text of a float. -/
def floatText (x : Float) : String :=
  layout.write x

/-- The number as it is written in a source.  An infinity is written as a literal too big for a
float. -/
def text : Number → String
  | int n => toString n.toInt
  | float x => if x.isInf then if x < 0.0 then "-1e999" else "1e999" else floatText x

/-- The number followed by a letter for its kind. -/
def tagged : Number → String
  | int n => toString n.toInt ++ " i"
  | float x => floatText x ++ " f"

/-- The number as a float. -/
def toFloat : Number → Float
  | int n => n.toFloat
  | float x => x

/-- Is the number zero, of either sign? -/
def isZero : Number → Bool
  | int n => n == 0
  | float x => x == 0.0

/-! ## Reading -/

/-- The optional sign at the start, `true` for minus, and the rest. -/
def splitSign : List Char → Bool × List Char
  | '-' :: cs => (true, cs)
  | '+' :: cs => (false, cs)
  | cs => (false, cs)

/-- An optional sign and at least one digit, with a value of 64 bits. -/
def readInteger (base : Nat) (cs : List Char) : Option Int64 :=
  let (negative, digits) := splitSign cs
  if digits = [] then none
  else
    (Decimal.readNat base digits).bind fun n =>
      let value : Int := if negative then -n else n
      if Int64.minValue.toInt ≤ value ∧ value ≤ Int64.maxValue.toInt then
        some (Int64.ofInt value)
      else none

/-- The size of an exponent from its digits.  A size of 65536 or more, which takes every number of
usual length out of the range of floats, is not extended by further digits. -/
def exponentSize (digits : List Char) : Nat :=
  digits.foldl (fun n c => if n < 65536 then 10 * n + (c.toNat - '0'.toNat) else n) 0

/-- The power of ten of an exponent: nothing, or `e` or `E`, an optional sign and at least one
digit. -/
def readExponent : List Char → Option Int
  | [] => some 0
  | c :: cs =>
    let (negative, digits) := splitSign cs
    if (c = 'e' ∨ c = 'E') ∧ digits ≠ [] ∧ digits.all Char.isDigit then
      some (if negative then -exponentSize digits else exponentSize digits)
    else none

/-- An optional sign, digits with an optional point, at least one digit in all, and an optional
exponent. -/
def readFloat (cs : List Char) : Option Float :=
  let (negative, cs) := splitSign cs
  let whole := cs.takeWhile Char.isDigit
  let (fraction, rest) := match cs.dropWhile Char.isDigit with
    | '.' :: rest => (rest.takeWhile Char.isDigit, rest.dropWhile Char.isDigit)
    | rest => ([], rest)
  if whole ++ fraction = [] then none
  else
    (readExponent rest).bind fun exponent =>
      (Decimal.readNat 10 (whole ++ fraction)).map fun digits =>
        let x := Decimal.toFloat ⟨digits, exponent - fraction.length⟩
        if negative then -x else x

/-- The number that the characters spell, if they spell one.  After `$`, and after `0x` or `0X`
with something behind it, only a hexadecimal integer can follow. -/
def readChars : List Char → Option Number
  | '$' :: cs => (readInteger 16 cs).map int
  | '0' :: 'x' :: c :: cs => (readInteger 16 (c :: cs)).map int
  | '0' :: 'X' :: c :: cs => (readInteger 16 (c :: cs)).map int
  | cs => ((readInteger 10 cs).map int).or ((readFloat cs).map float)

/-- The number that a text spells, if it spells one. -/
def read? (s : String) : Option Number :=
  readChars s.toList

theorem read?_eq_none_of_bare_sign : read? "-" = none ∧ read? "+" = none := by decide +kernel

example : exponentSize "65535".toList = 65535 ∧ exponentSize "6553512".toList = 655351 := by
  decide +kernel

example : read? "-0x10" = none ∧ read? "0x-10" = some (.int (-16)) ∧ read? "1-2" = none := by
  decide +kernel

end Number

end StackLang
