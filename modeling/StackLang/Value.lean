import StackLang.Number
import StackLang.Text.Quoted

/-!
# Values

What can lie on the data stack, on the return stack or in a memory cell.  Flags and addresses count
as integers where a number is asked for: a true flag is -1, an address is its index.

* `int?_eq_some_iff`: a value has an integer view exactly when its number view is an integer.
* `number?_ofNumber`: a number taken as a value is that number again.
-/

namespace StackLang

inductive Value where
  | int (n : Int64)
  | float (x : Float)
  /-- The result of a comparison. -/
  | flag (b : Bool)
  /-- The index of a memory cell. -/
  | address (a : UInt64)
  /-- The text of a string literal.  Its length travels separately, as an integer. -/
  | string (s : String)
deriving DecidableEq

namespace Value

/-- What a fresh memory cell holds. -/
def zero : Value :=
  int 0

/-- The integer that a flag stands for. -/
def flagInt (b : Bool) : Int64 :=
  if b then -1 else 0

def ofNumber : Number → Value
  | .int n => int n
  | .float x => float x

/-- The value as a number.  A string is none. -/
def number? : Value → Option Number
  | int n => some (.int n)
  | float x => some (.float x)
  | flag b => some (.int (flagInt b))
  | address a => some (.int a.toInt64)
  | string _ => none

/-- The value as an integer.  A float is none, whatever its value. -/
def int? (v : Value) : Option Int64 :=
  match v.number? with
  | some (.int n) => some n
  | _ => none

/-- The value as a flag: anything but zero is true.  A string is none. -/
def flag? : Value → Option Bool
  | flag b => some b
  | float x => some (x != 0.0)
  | v => v.int?.map (· != 0)

theorem int?_eq_some_iff {v : Value} {n : Int64} :
    v.int? = some n ↔ v.number? = some (.int n) := by
  unfold int?
  split <;> simp_all

@[simp] theorem number?_ofNumber (n : Number) : (ofNumber n).number? = some n := by
  cases n <;> rfl

/-- Numbers are equal when their values are, whatever their kind; a string equals only itself. -/
def equal (v w : Value) : Bool :=
  match v, w with
  | string s, string t => s == t
  | v, w => match v.number?, w.number? with
    | some (.int m), some (.int n) => m == n
    | some m, some n => m.toFloat == n.toFloat
    | _, _ => false

/-! ## Texts -/

/-- The value as `.` prints it. -/
def text : Value → String
  | int n => toString n.toInt
  | float x => Number.floatText x
  | flag b => toString (flagInt b).toInt
  | address a => toString a.toNat
  | string s => s

/-- Source text that pushes the value.  No literal is NaN, so it is written as the difference of two
infinities; a string is pushed with its length, which is dropped again. -/
def source : Value → String
  | int n => toString n.toInt
  | float x => if x.isNaN then "1e999 1e999 -" else (Number.float x).text
  | flag true => "TRUE"
  | flag false => "FALSE"
  | address a => toString a.toNat
  | string s => "S\" " ++ s ++ "\" DROP"

/-- The name of the value's kind, as a type mismatch reports it. -/
def kind : Value → String
  | int _ => "integer"
  | float _ => "float"
  | flag _ => "flag"
  | address _ => "address"
  | string _ => "string"

/-- The value with its kind, as listings of compiled code show it. -/
def described : Value → String
  | int n => "Int(" ++ toString n.toInt ++ ")"
  | float x => "Float(" ++ Number.floatText x ++ ")"
  | flag b => "Flag(" ++ toString b ++ ")"
  | address a => "Address(" ++ toString a.toNat ++ ")"
  | string s => "String(" ++ Text.quoted s ++ ")"

end Value

end StackLang
