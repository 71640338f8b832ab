import StackLang.Decimal.Basic

/-!
# Shortest decimal numbers that read back

A positive float stands for all the reals that round to it.  Among the decimal numbers with these
reals the shortest is the one with the fewest digits, and of those the nearest.  The search tries
the grids of powers of ten from coarse to fine; on each, only the two neighbours of the value can
be the answer.

* `readsBack_of_nearest?`: what the search finds on a grid rounds to the float.
* `readsBack_of_firstHit`: so does what it finds on any grid.
-/

namespace StackLang.Decimal

/-- The number `significand · 2 ^ exponent`, as a float holds it. -/
structure Dyadic where
  significand : Nat
  exponent : Int
  /-- At a power of two the next float below is half as far away as the next above. -/
  narrowBelow : Bool
deriving Repr, DecidableEq

/-- The magnitude in the bits of a finite float. -/
def Dyadic.ofBits (bits : UInt64) : Dyadic :=
  let fraction := (bits &&& 0xFFFFFFFFFFFFF).toNat
  let biased := (bits >>> 52 &&& 0x7FF).toNat
  if biased = 0 then ⟨fraction, -1074, false⟩
  else ⟨0x10000000000000 + fraction, (biased : Int) - 1075, fraction == 0 && biased > 1⟩

/-- Factors that bring the grid `10 ^ g` and the quarter unit `2 ^ (exponent - 2)` to one scale:
`n · 10 ^ g` and `k · 2 ^ (exponent - 2)` compare as `n` and `k` times the factors. -/
def Dyadic.scales (x : Dyadic) (g : Int) : Nat × Nat :=
  (Nat.pow 10 g.toNat * Nat.pow 2 (2 - x.exponent).toNat,
    Nat.pow 10 (-g).toNat * Nat.pow 2 (x.exponent - 2).toNat)

/-- Does `n · 10 ^ g` round to `x`?  The halfway points to the neighbours do when the significand
is even. -/
def Dyadic.readsBack (x : Dyadic) (g : Int) (n : Nat) : Bool :=
  let (grid, quarter) := x.scales g
  let low := (4 * x.significand - if x.narrowBelow then 1 else 2) * quarter
  let high := (4 * x.significand + 2) * quarter
  if x.significand % 2 = 0 then low ≤ n * grid && n * grid ≤ high
  else low < n * grid && n * grid < high

/-- The nearest number on the grid `10 ^ g` that rounds to `x`, if one does.  Of two at the same
distance it is the larger. -/
def Dyadic.nearest? (x : Dyadic) (g : Int) : Option Nat :=
  let (grid, quarter) := x.scales g
  let value := 4 * x.significand * quarter
  let below := value / grid
  if x.readsBack g below ∧ (¬ x.readsBack g (below + 1) ∨ 2 * value < (2 * below + 1) * grid) then
    some below
  else if x.readsBack g (below + 1) then some (below + 1)
  else none

/-- The answer on the first of `count` grids, from `10 ^ g` downwards, that has one. -/
def Dyadic.firstHit (x : Dyadic) : (count : Nat) → (g : Int) → Option Decimal
  | 0, _ => none
  | count + 1, g =>
    match x.nearest? g with
    | some n => some ⟨n, g⟩
    | none => x.firstHit count (g - 1)

/-- The value itself, digit for digit. -/
def Dyadic.exact (x : Dyadic) : Decimal :=
  if 0 ≤ x.exponent then ⟨x.significand * Nat.pow 2 x.exponent.toNat, 0⟩
  else ⟨x.significand * Nat.pow 5 x.exponent.natAbs, x.exponent⟩

/-- The shortest decimal number that rounds to `x`, for a positive `x`.  The first grid lies
above the value, and seventeen digits always suffice. -/
def Dyadic.shortest (x : Dyadic) : Decimal :=
  let order := x.significand.log2 + x.exponent
  (x.firstHit 20 ((order * 30103).fdiv 100000 + 2)).getD x.exact

theorem readsBack_of_nearest? {x : Dyadic} {g : Int} {n : Nat} (h : x.nearest? g = some n) :
    x.readsBack g n = true := by
  simp only [Dyadic.nearest?] at h
  split at h
  · rename_i hb
    cases h
    exact hb.1
  · split at h
    · rename_i hb
      cases h
      exact hb
    · cases h

theorem readsBack_of_firstHit {x : Dyadic} {count : Nat} {g : Int} {d : Decimal}
    (h : x.firstHit count g = some d) : x.readsBack d.exponent d.digits = true := by
  induction count generalizing g with
  | zero => cases h
  | succ count ih =>
    simp only [Dyadic.firstHit] at h
    split at h
    · rename_i n hn
      cases h
      exact readsBack_of_nearest? hn
    · exact ih h

end StackLang.Decimal
