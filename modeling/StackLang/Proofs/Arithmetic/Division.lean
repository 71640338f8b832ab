import Mathlib.Data.Rat.Floor
import Mathlib.Tactic.FieldSimp
import StackLang.Proofs.Framework.Triple
import StackLang.Word

/-!
# Floored division

The machine divides towards zero, and `flooredDivMod` corrects the result.  On the integers that
two's complement stands for, the corrected pair is the one pair with `a = b * q + r` whose remainder
lies between zero and the divisor (`floors_flooredDivMod`), so that `q` is the floor of the exact
quotient (`Floors.floor_eq`).  Between two integers of 64 bits, and for the product of two by a
third, no step leaves the double width (`flooredDivMod?_eq`, `scale?_eq`).

* `integer_division`: what the four dividing words leave on the stack, and how they fail.
-/

namespace StackLang

/-! ## On the integers -/

/-- `q` and `r` are quotient and remainder of `a` by `b`, and the remainder is on the divisor's
side of zero. -/
structure Floors (a b q r : Int) : Prop where
  eq : a = b * q + r
  between : 0 ≤ r ∧ r < b ∨ b < r ∧ r ≤ 0

namespace Floors

variable {a b q r : Int} (h : Floors a b q r)
include h

theorem floor_eq : ⌊(a : ℚ) / b⌋ = q := by
  have hb : (b : ℚ) ≠ 0 := by
    have := h.between
    exact_mod_cast show b ≠ 0 by omega
  have hsplit : (a : ℚ) / b = q + (r : ℚ) / b := by
    rw [h.eq]
    push_cast
    field_simp
  rw [hsplit, Int.floor_intCast_add, Int.floor_eq_zero_iff.2, add_zero]
  rcases h.between with ⟨hr, hlt⟩ | ⟨hlt, hr⟩
  · have hr : (0 : ℚ) ≤ r := by exact_mod_cast hr
    have hlt : (r : ℚ) < b := by exact_mod_cast hlt
    exact ⟨div_nonneg hr (hr.trans hlt.le), (div_lt_one (hr.trans_lt hlt)).2 hlt⟩
  · have hr : (r : ℚ) ≤ 0 := by exact_mod_cast hr
    have hlt : (b : ℚ) < r := by exact_mod_cast hlt
    exact ⟨div_nonneg_of_nonpos hr (hlt.le.trans hr), (div_lt_one_of_neg (hlt.trans_le hr)).2 hlt⟩

theorem abs_lt : |r| < |b| := by
  have := h.between
  grind

theorem sign_eq (hr : r ≠ 0) : r.sign = b.sign := by
  rcases h.between with ⟨hr', hlt⟩ | ⟨hlt, hr'⟩
  · rw [Int.sign_eq_one_of_pos (by omega), Int.sign_eq_one_of_pos (by omega)]
  · rw [Int.sign_eq_neg_one_of_neg (by omega), Int.sign_eq_neg_one_of_neg (by omega)]

end Floors

/-- Rounding towards zero leaves a remainder that is smaller than the divisor; where it is on the
wrong side of zero, one step of the quotient brings it to the other. -/
theorem floors_of_tdiv {a b : Int} (hb : b ≠ 0) :
    if a.tmod b ≠ 0 ∧ (a.tmod b < 0 ↔ ¬ b < 0) then Floors a b (a.tdiv b - 1) (a.tmod b + b)
    else Floors a b (a.tdiv b) (a.tmod b) := by
  have heq := Int.mul_tdiv_add_tmod a b
  have hlt : (a.tmod b).natAbs < b.natAbs := by
    rw [Int.natAbs_tmod]
    exact Nat.mod_lt _ (by omega)
  split
  · exact ⟨by rw [mul_sub]; omega, by omega⟩
  · exact ⟨by omega, by omega⟩

/-! ## At double width -/

@[simp] theorem toInt_widen (n : Int64) : (widen n).toInt = n.toInt := by
  rw [widen, BitVec.toInt_signExtend_of_le (by decide), Int64.toInt_toBitVec]

theorem narrow_eq (n : Wide) : narrow n = .ofInt n.toInt := by
  rw [narrow, ← Int64.ofBitVec_ofInt]
  congr 1
  rw [← BitVec.toInt_inj, BitVec.toInt_setWidth, BitVec.toInt_ofInt,
    BitVec.toInt_eq_toNat_bmod, Int.bmod_bmod_of_dvd (by decide)]

/-- The result of a step, unless the exact one does not fit. -/
def unlessOverflow (overflow : Bool) (result : Wide) : Option Wide :=
  if overflow then none else some result

/-- `flooredDivMod` on a machine that stops at a division by zero and at the first result that does
not fit. -/
def flooredDivMod? (a b : Wide) : Option (Wide × Wide) := do
  guard (b ≠ 0)
  let quotient ← unlessOverflow (a.sdivOverflow b) (a.sdiv b)
  let remainder ← unlessOverflow (a.sdivOverflow b) (a.srem b)
  if remainder ≠ 0 ∧ remainder.slt 0 ≠ b.slt 0 then
    let quotient ← unlessOverflow (quotient.ssubOverflow 1) (quotient - 1)
    let remainder ← unlessOverflow (remainder.saddOverflow b) (remainder + b)
    pure (quotient, remainder)
  else pure (quotient, remainder)

/-- The product of two integers divided by a third, on the same machine. -/
def scale? (a b c : Int64) : Option (Wide × Wide) := do
  let product ← unlessOverflow ((widen a).smulOverflow (widen b)) (wideProduct a b)
  flooredDivMod? product (widen c)

/-- The test for the correction, on the integers. -/
theorem slt_ne_slt_iff {r b : Wide} :
    r ≠ 0 ∧ r.slt 0 ≠ b.slt 0 ↔ r.toInt ≠ 0 ∧ (r.toInt < 0 ↔ ¬ b.toInt < 0) := by
  have hzero : r ≠ 0 ↔ r.toInt ≠ 0 := by
    rw [Ne, ← BitVec.toInt_inj]
    rfl
  have hneg (n : Wide) : n.slt 0 = true ↔ n.toInt < 0 := BitVec.slt_iff_toInt_lt
  rw [hzero, ← hneg, ← hneg]
  cases r.slt 0 <;> cases b.slt 0 <;> simp

section

variable {a b : Wide}

/-- Rounded towards zero, only the smallest integer has a quotient that does not fit. -/
theorem sdivOverflow_eq_false (ha : a ≠ .intMin 128) : a.sdivOverflow b = false := by
  rw [BitVec.sdivOverflow_eq]
  simp [ha]

/-- The quotient has room for one step below it. -/
theorem ssubOverflow_eq_false (ha : a ≠ .intMin 128) : (a.sdiv b).ssubOverflow 1 = false := by
  have hmin : a.toInt ≠ -2 ^ 127 := fun h => ha (BitVec.toInt_inj.1 h)
  have hle := Int.natAbs_tdiv_le_natAbs a.toInt b.toInt
  have hlow := a.le_toInt
  have hhigh := a.toInt_lt
  have hone : (1 : Wide).toInt = 1 := by decide
  simp only [BitVec.ssubOverflow, BitVec.toInt_sdiv_of_ne_or_ne a b (.inl ha), hone,
    Bool.or_eq_false_iff, decide_eq_false_iff_not]
  omega

/-- A remainder and a divisor on different sides of zero have a sum between them. -/
theorem saddOverflow_eq_false {r : Wide} (h : r.toInt < 0 ↔ ¬ b.toInt < 0) :
    r.saddOverflow b = false := by
  have := r.le_toInt
  have := r.toInt_lt
  have := b.le_toInt
  have := b.toInt_lt
  simp only [BitVec.saddOverflow, Bool.or_eq_false_iff, decide_eq_false_iff_not]
  omega

/-- No step of a division overflows unless the smallest integer is divided. -/
theorem flooredDivMod?_eq (ha : a ≠ .intMin 128) (hb : b ≠ 0) :
    flooredDivMod? a b = some (flooredDivMod a b) := by
  have hguard : (guard (b ≠ 0) : Option Unit) = some () := if_pos hb
  unfold flooredDivMod? flooredDivMod
  simp only [hguard, unlessOverflow, sdivOverflow_eq_false ha, ssubOverflow_eq_false ha,
    Option.bind_eq_bind, Option.bind_some, Bool.false_eq_true, if_false]
  split
  · rename_i hfix
    rw [saddOverflow_eq_false (slt_ne_slt_iff.1 hfix).2]
    rfl
  · rfl

/-- The pair of a division is that of the integers. -/
theorem floors_flooredDivMod (ha : a ≠ .intMin 128) (hb : b ≠ 0) :
    Floors a.toInt b.toInt (flooredDivMod a b).1.toInt (flooredDivMod a b).2.toInt := by
  have hzero : b.toInt ≠ 0 := fun h => hb (BitVec.toInt_inj.1 h)
  have hfloors := floors_of_tdiv (a := a.toInt) hzero
  have hquotient : (a.sdiv b).toInt = a.toInt.tdiv b.toInt :=
    BitVec.toInt_sdiv_of_ne_or_ne a b (.inl ha)
  rw [← BitVec.toInt_srem, ← hquotient] at hfloors
  unfold flooredDivMod
  dsimp only
  split
  · rename_i hfix
    rw [slt_ne_slt_iff] at hfix
    rw [if_pos hfix] at hfloors
    have hsub := ssubOverflow_eq_false (b := b) ha
    have hadd := saddOverflow_eq_false hfix.2
    rw [BitVec.toInt_sub_of_not_ssubOverflow (by rw [hsub]; decide),
      BitVec.toInt_add_of_not_saddOverflow (by rw [hadd]; decide)]
    exact hfloors
  · rename_i hfix
    rw [slt_ne_slt_iff] at hfix
    rwa [if_neg hfix] at hfloors

end

/-! ## From 64 bits -/

section

variable {a b c : Int64}

theorem widen_ne_intMin : widen a ≠ .intMin 128 := by
  intro h
  have hmin : a.toInt = -2 ^ 127 := by
    rw [← toInt_widen, h]
    decide
  have := a.le_toInt
  omega

theorem widen_ne_zero (hb : b ≠ 0) : widen b ≠ 0 := by
  intro h
  have hzero : b.toInt = 0 := by
    rw [← toInt_widen, h]
    decide
  exact hb (Int64.toInt_inj.1 hzero)

/-- The product of two integers of 64 bits is far from the limits of double width. -/
theorem natAbs_mul_le : (a.toInt * b.toInt).natAbs ≤ 2 ^ 126 := by
  have ha : a.toInt.natAbs ≤ 2 ^ 63 := by
    have := a.le_toInt
    have := a.toInt_lt
    omega
  have hb : b.toInt.natAbs ≤ 2 ^ 63 := by
    have := b.le_toInt
    have := b.toInt_lt
    omega
  calc (a.toInt * b.toInt).natAbs
    _ = a.toInt.natAbs * b.toInt.natAbs := Int.natAbs_mul _ _
    _ ≤ 2 ^ 63 * 2 ^ 63 := Nat.mul_le_mul ha hb
    _ = 2 ^ 126 := by norm_num

theorem smulOverflow_eq_false : (widen a).smulOverflow (widen b) = false := by
  have := natAbs_mul_le (a := a) (b := b)
  simp only [BitVec.smulOverflow, toInt_widen, Bool.or_eq_false_iff, decide_eq_false_iff_not]
  omega

theorem toInt_wideProduct : (wideProduct a b).toInt = a.toInt * b.toInt := by
  have h := smulOverflow_eq_false (a := a) (b := b)
  rw [wideProduct, BitVec.toInt_mul_of_not_smulOverflow (by rw [h]; decide), toInt_widen,
    toInt_widen]

theorem wideProduct_ne_intMin : wideProduct a b ≠ .intMin 128 := by
  intro h
  have hmin : a.toInt * b.toInt = -2 ^ 127 := by
    rw [← toInt_wideProduct, h]
    decide
  have := natAbs_mul_le (a := a) (b := b)
  omega

/-- No step of a multiplication and a division overflows. -/
theorem scale?_eq (hc : c ≠ 0) :
    scale? a b c = some (flooredDivMod (wideProduct a b) (widen c)) := by
  rw [← flooredDivMod?_eq wideProduct_ne_intMin (widen_ne_zero hc), scale?, smulOverflow_eq_false]
  rfl

theorem floors_widen (hb : b ≠ 0) :
    Floors a.toInt b.toInt (flooredDivMod (widen a) (widen b)).1.toInt
      (flooredDivMod (widen a) (widen b)).2.toInt := by
  have h := floors_flooredDivMod (widen_ne_intMin (a := a)) (widen_ne_zero hb)
  rwa [toInt_widen, toInt_widen] at h

theorem flooredQuotient_eq (hb : b ≠ 0) :
    flooredQuotient a b = .ofInt ⌊(a.toInt : ℚ) / b.toInt⌋ := by
  rw [flooredQuotient, narrow_eq, (floors_widen hb).floor_eq]

/-- A remainder is no larger than the divisor, so its low half is all of it. -/
theorem toInt_flooredRemainder (hb : b ≠ 0) :
    (flooredRemainder a b).toInt = (flooredDivMod (widen a) (widen b)).2.toInt := by
  have := (floors_widen (a := a) hb).between
  have := b.le_toInt
  have := b.toInt_lt
  rw [flooredRemainder, narrow_eq, Int64.toInt_ofInt_of_le (by omega) (by omega)]

theorem floors_floored (hb : b ≠ 0) :
    Floors a.toInt b.toInt ⌊(a.toInt : ℚ) / b.toInt⌋ (flooredRemainder a b).toInt := by
  rw [toInt_flooredRemainder hb, (floors_widen hb).floor_eq]
  exact floors_widen hb

/-- Halving by a shift is the floored division by two. -/
theorem shiftRight_one_eq (n : Int64) : n >>> 1 = flooredQuotient n 2 := by
  have hfloor : ⌊(n.toInt : ℚ) / (2 : Int64).toInt⌋ = n.toInt / 2 :=
    Rat.floor_intCast_div_natCast n.toInt 2
  have hshift : (n >>> 1).toInt = n.toInt / 2 := by
    rw [← Int64.toInt_toBitVec, Int64.toBitVec_shiftRight]
    exact BitVec.toInt_sshiftRight.trans (Int.shiftRight_eq_div_pow _ 1)
  rw [flooredQuotient_eq (by decide), hfloor, ← hshift, Int64.ofInt_toInt]

theorem scaled_eq (hc : c ≠ 0) :
    narrow (flooredDivMod (wideProduct a b) (widen c)).1 =
      .ofInt ⌊((a.toInt * b.toInt : ℤ) : ℚ) / c.toInt⌋ := by
  have h := floors_flooredDivMod (wideProduct_ne_intMin (a := a) (b := b)) (widen_ne_zero hc)
  rw [toInt_widen, toInt_wideProduct] at h
  rw [narrow_eq, h.floor_eq]

end

/-! ## The words -/

open Session

/-- `q` and `r` are the exact floored quotient, wrapped to 64 bits, and its exact remainder. -/
structure FlooredPair (a b q r : Int64) : Prop where
  quotient : q = .ofInt ⌊(a.toInt : ℚ) / b.toInt⌋
  remainder : r.toInt = a.toInt - b.toInt * ⌊(a.toInt : ℚ) / b.toInt⌋
  small : |r.toInt| < |b.toInt|
  sign : r = 0 ∨ r.toInt.sign = b.toInt.sign

theorem flooredPair {a b : Int64} (hb : b ≠ 0) :
    FlooredPair a b (flooredQuotient a b) (flooredRemainder a b) where
  quotient := flooredQuotient_eq hb
  remainder := by
    have := (floors_floored (a := a) hb).eq
    omega
  small := (floors_floored hb).abs_lt
  sign := by
    by_cases hr : flooredRemainder a b = 0
    · exact .inl hr
    · exact .inr ((floors_floored hb).sign_eq fun h => hr (Int64.toInt_inj.1 h))

/-- The word fails because of a division by zero. -/
def FailsByZero (w : MathWord) (s : Session) (dividend : Value) : Prop :=
  ∃ e t, (Builtin.math w).run s = .error (.script e) t ∧ e.cause = .divisionByZero dividend

/-- Two integers on the stack are the operands of a division, unless the divisor is zero. -/
theorem popDivision_int (a b : Int64) (rest : DataStack) :
    Operand.popDivision (.int b :: .int a :: rest) =
      if b = 0 then .error (.divisionByZero (.int a)) rest
      else .ok (.int a, .int b) rest := by
  have hpop : Operand.popNumbers (.int b :: .int a :: rest) = .ok (.int a, .int b) rest := rfl
  rw [Operand.popDivision, bind_apply, hpop]
  dsimp only
  by_cases hb : b = 0
  · subst hb
    rfl
  · have hzero : (Number.int b).isZero = false := beq_eq_false_iff_ne.2 hb
    rw [hzero, if_neg hb]
    rfl

/-- Three integers on the stack are multiplied and divided, unless the divisor is zero. -/
theorem run_scale_int (a b c : Int64) (rest : DataStack) :
    MathWord.scale.run (.int c :: .int b :: .int a :: rest) =
      if c = 0 then .error (.divisionByZero (.int (narrow (wideProduct a b)))) rest
      else .ok () (.int (narrow (flooredDivMod (wideProduct a b) (widen c)).1) :: rest) := by
  have hstart : MathWord.scale.run (.int c :: .int b :: .int a :: rest) =
      (do
        if c = 0 then throw (.divisionByZero (.int (narrow (wideProduct a b))))
        Operand.push (.int (narrow (flooredDivMod (wideProduct a b) (widen c)).1)) :
          Operand Unit) rest := rfl
  rw [hstart]
  by_cases hc : c = 0
  · rw [if_pos hc, if_pos hc]
    rfl
  · rw [if_neg hc, if_neg hc]
    rfl

/-- What the four dividing words do with integers on the stack: `a b` for the first three, and
`a b c` for the one that multiplies first.  No step of theirs leaves the double width. -/
theorem integer_division (s : Session) (a b c : Int64) (rest : DataStack) :
    (s.stack = .int b :: .int a :: rest →
      (b ≠ 0 → ∃ q r, FlooredPair a b q r ∧
        (Builtin.math .divMod).run s = .ok () { s with stack := .int q :: .int r :: rest } ∧
        (Builtin.math .divide).run s = .ok () { s with stack := .int q :: rest } ∧
        (Builtin.math .mod).run s = .ok () { s with stack := .int r :: rest } ∧
        flooredDivMod? (widen a) (widen b) = some (flooredDivMod (widen a) (widen b))) ∧
      (b = 0 → ∀ w ∈ [MathWord.divMod, .divide, .mod], FailsByZero w s (.int a))) ∧
    (s.stack = .int c :: .int b :: .int a :: rest →
      (c ≠ 0 →
        (Builtin.math .scale).run s = .ok ()
          { s with
            stack := .int (.ofInt ⌊((a.toInt * b.toInt : ℤ) : ℚ) / c.toInt⌋) :: rest } ∧
        scale? a b c = some (flooredDivMod (wideProduct a b) (widen c))) ∧
      (c = 0 → FailsByZero .scale s (.int (a * b)))) := by
  refine ⟨fun hs => ⟨fun hb => ?_, fun hb w hw => ?_⟩, fun hs => ⟨fun hc => ?_, fun hc => ?_⟩⟩
  · have hpop := popDivision_int a b rest
    rw [if_neg hb] at hpop
    refine ⟨_, _, flooredPair hb, Action.operands_ok ?_, Action.operands_ok ?_,
      Action.operands_ok ?_, flooredDivMod?_eq widen_ne_intMin (widen_ne_zero hb)⟩
    · rw [hs, MathWord.run, bind_apply, hpop]
      rfl
    · rw [hs, MathWord.run, bind_apply, hpop]
      rfl
    · rw [hs, MathWord.run, bind_apply, hpop]
      rfl
  · have hpop := popDivision_int a b rest
    rw [if_pos hb] at hpop
    have hrun : w.run s.stack = .error (.divisionByZero (.int a)) rest := by
      rw [hs]
      simp only [List.mem_cons, List.not_mem_nil, or_false] at hw
      rcases hw with rfl | rfl | rfl <;> rw [MathWord.run, bind_apply, hpop]
    exact ⟨_, _, Action.operands_error hrun, rfl⟩
  · refine ⟨Action.operands_ok ?_, scale?_eq hc⟩
    rw [hs, run_scale_int, if_neg hc, scaled_eq hc]
  · have hrun : MathWord.scale.run s.stack = .error (.divisionByZero (.int (a * b))) rest := by
      rw [hs, run_scale_int, if_pos hc, narrow_eq, toInt_wideProduct, Int64.ofInt_mul,
        Int64.ofInt_toInt, Int64.ofInt_toInt]
    exact ⟨_, _, Action.operands_error hrun, rfl⟩

/-- The words on minus seven and two, on zero as the divisor, and on a product that does not fit in
64 bits. -/
theorem integer_division_of_seven :
    let s (stack : DataStack) : Session := { ofConfig .standard with stack }
    (∃ q r, FlooredPair (-7) 2 q r ∧
      (Builtin.math .divMod).run (s [.int 2, .int (-7)]) = .ok () (s [.int q, .int r]) ∧
      (Builtin.math .divide).run (s [.int 2, .int (-7)]) = .ok () (s [.int q]) ∧
      (Builtin.math .mod).run (s [.int 2, .int (-7)]) = .ok () (s [.int r]) ∧
      flooredDivMod? (widen (-7)) (widen 2) = some (flooredDivMod (widen (-7)) (widen 2))) ∧
    FailsByZero .divide (s [.int 0, .int (-7)]) (.int (-7)) ∧
    (Builtin.math .scale).run (s [.int (-7), .int 2, .int .maxValue]) = .ok ()
      (s [.int (.ofInt
        ⌊((Int64.maxValue.toInt * (2 : Int64).toInt : ℤ) : ℚ) / (-7 : Int64).toInt⌋)]) ∧
    FailsByZero .scale (s [.int 0, .int 2, .int (-7)]) (.int (-7 * 2)) := by
  intro s
  have hdivides := (integer_division (s [.int 2, .int (-7)]) (-7) 2 0 []).1 rfl
  have hzero := (integer_division (s [.int 0, .int (-7)]) (-7) 0 0 []).1 rfl
  have hscales := (integer_division (s [.int (-7), .int 2, .int .maxValue]) .maxValue 2 (-7) []).2
    rfl
  have hscalesZero := (integer_division (s [.int 0, .int 2, .int (-7)]) (-7) 2 0 []).2 rfl
  exact ⟨hdivides.1 (by decide), hzero.2 rfl .divide (by decide), (hscales.1 (by decide)).1,
    hscalesZero.2 rfl⟩

end StackLang
