import StackLang.Proofs.Saved.Reading

/-!
# Numbers and their text

A number that was read is printed as a text that is read as the same number.  For integers and for
literals that are too big for a float this is shown here; of a finite float it is not.

* `eq_of_isInf`: there are two infinities.
* `isNaN_of_read?`: what is read is a number.
* `numeric_of_read?`, `plain_of_isNumeric`: the characters of what is read as a number.
* `read?_text`: a number that was read is read back.
-/

namespace StackLang

namespace Number

open Float.Model UnpackedFloat

/-! ## Floats -/

theorem toNat_of_infinity {b : BitVec Format.binary64.numBits} {sign : Sign}
    (h : UnpackedFloat.unpack .binary64 b = .infinity sign) :
    b.toNat = 0x7FF0000000000000 ∨ b.toNat = 0xFFF0000000000000 := by
  unfold UnpackedFloat.unpack at h
  dsimp only at h
  by_cases he : unpackExponent b = -1#_
  · rw [if_pos he] at h
    by_cases hm : unpackMantissa b = 0#_
    · have he := congrArg BitVec.toNat he
      have hm := congrArg BitVec.toNat hm
      have hlt : b.toNat < 2 ^ 64 := b.isLt
      simp [unpackExponent, unpackMantissa] at he hm
      rw [Nat.shiftRight_eq_div_pow] at he
      omega
    · rw [if_neg hm] at h
      cases h
  · rw [if_neg he] at h
    by_cases hz : unpackExponent b = 0#_
    · rw [if_pos hz] at h
      by_cases hm : unpackMantissa b = 0#_
      · rw [dif_pos hm] at h
        cases h
      · rw [dif_neg hm] at h
        cases h
    · rw [if_neg hz] at h
      cases h

theorem eq_of_toNat {x y : Float} (h : x.toBits.toBitVec.toNat = y.toBits.toBitVec.toNat) :
    x = y := by
  obtain ⟨⟨a, ha⟩⟩ := x
  obtain ⟨⟨b, hb⟩⟩ := y
  obtain rfl : a = b := UInt64.toBitVec_inj.1 (BitVec.eq_of_toNat_eq h)
  rfl

/-- There are two infinities. -/
theorem eq_of_isInf {x : Float} (h : x.isInf = true) : x = 1.0 / 0.0 ∨ x = -(1.0 / 0.0) := by
  obtain ⟨sign, hsign⟩ : ∃ sign,
      UnpackedFloat.unpack .binary64 x.toBits.toBitVec = .infinity sign := by
    change UnpackedFloat.isInf (UnpackedFloat.unpack .binary64 x.toBits.toBitVec) = true at h
    cases hu : UnpackedFloat.unpack .binary64 x.toBits.toBitVec <;> rw [hu] at h <;> try cases h
    exact ⟨_, rfl⟩
  refine (toNat_of_infinity hsign).imp (fun hb => eq_of_toNat ?_) fun hb => eq_of_toNat ?_
  · rw [hb]
    decide
  · rw [hb]
    decide

section

variable {p : Prop} [Decidable p]

theorem isNaN_ite {u v : UnpackedFloat} (hu : p → u.isNaN = false) (hv : ¬ p → v.isNaN = false) :
    (if p then u else v).isNaN = false := by
  by_cases h : p
  · rw [if_pos h]
    exact hu h
  · rw [if_neg h]
    exact hv h

theorem isNaN_dite {u : p → UnpackedFloat} {v : ¬ p → UnpackedFloat}
    (hu : ∀ h, (u h).isNaN = false) (hv : ∀ h, (v h).isNaN = false) :
    (if h : p then u h else v h).isNaN = false := by
  by_cases h : p
  · rw [dif_pos h]
    exact hu h
  · rw [dif_neg h]
    exact hv h

end

/-- All that is no number has the greatest exponent and a mantissa. -/
theorem isNaN_unpack {b : BitVec Format.binary64.numBits}
    (h : unpackExponent b = -1#_ → unpackMantissa b = 0#_) :
    (UnpackedFloat.unpack .binary64 b).isNaN = false := by
  unfold UnpackedFloat.unpack
  dsimp only
  refine isNaN_ite (fun he => ?_) fun _ => ?_
  · rw [if_pos (h he)]
    rfl
  · exact isNaN_ite (fun _ => isNaN_dite (fun _ => rfl) fun _ => rfl) fun _ => rfl

/-- What is packed stays a number. -/
theorem isNaN_pack {u : UnpackedFloat} (h : u.isNaN = false) :
    (Float.Model.pack u).isNaN = false := by
  have main : unpackExponent (UnpackedFloat.pack .binary64 u) = -1#_ →
      unpackMantissa (UnpackedFloat.pack .binary64 u) = 0#_ := by
    fun_cases UnpackedFloat.pack with
    | case1 => cases h
    | case2 s => simp [packedInfinity]
    | case3 s => simp [packedZero]
    | case4 s m e hm biased hle => simp [packedInfinity]
    | case5 s m e hm bits biased hle heq =>
      intro he
      simp only [unpackExponent_packComponents] at he
      have he := congrArg BitVec.toNat he
      simp at he hle
      omega
    | case6 s m e hm bits biased hle hne =>
      intro he
      rw [unpackExponent_packComponents] at he
      exact absurd he (by decide)
  exact isNaN_unpack main

theorem isNaN_roundWithAccuracy (sign : Sign) (m : Nat) (e : Int) (a : Accuracy) :
    (roundWithAccuracy .binary64 sign m e a).isNaN = false := by
  unfold roundWithAccuracy
  dsimp only
  exact isNaN_dite (fun _ => rfl) fun _ => rfl

theorem isNaN_ofInt (n : Int) : (UnpackedFloat.ofInt .binary64 n).isNaN = false := by
  unfold UnpackedFloat.ofInt UnpackedFloat.normalize
  split
  · exact isNaN_roundWithAccuracy ..
  · rfl
  · exact isNaN_roundWithAccuracy ..

theorem isNaN_unpackedOfScientific (m : Nat) (e : Int) :
    (UnpackedFloat.ofScientific .binary64 m e).isNaN = false := by
  unfold UnpackedFloat.ofScientific
  refine isNaN_dite (fun _ => rfl) fun _ => isNaN_ite (fun _ => rfl) fun _ =>
    isNaN_ite (fun _ => rfl) fun _ => isNaN_ite (fun _ => ?_) fun _ => ?_
  · exact isNaN_roundWithAccuracy ..
  · exact isNaN_roundWithAccuracy ..

/-- A product with a float that is neither zero nor infinite is a number, and so is a quotient. -/
theorem isNaN_mul {u : UnpackedFloat} (h : u.isNaN = false) (s : Sign) (m : Nat) (e : Int)
    (hm : 0 < m) : (UnpackedFloat.mul .binary64 u (.finite s m e hm)).isNaN = false := by
  cases u with
  | notANumber => cases h
  | infinity s' | zero s' => rfl
  | finite s' m' e' hm' => exact isNaN_roundWithAccuracy ..

theorem isNaN_div {u : UnpackedFloat} (h : u.isNaN = false) (s : Sign) (m : Nat) (e : Int)
    (hm : 0 < m) : (UnpackedFloat.div .binary64 u (.finite s m e hm)).isNaN = false := by
  cases u with
  | notANumber => cases h
  | infinity s' | zero s' => rfl
  | finite s' m' e' hm' => exact isNaN_roundWithAccuracy ..

theorem unpack_powerOfTen {e : Nat} (he : e < Float.exactlyRepresentablePowersOfTen.size) :
    ∃ s m k hm, (Float.exactlyRepresentablePowersOfTen[e]).toModel.unpack = .finite s m k hm := by
  have hall : ∀ i : Fin 23,
      (match (Float.exactlyRepresentablePowersOfTen.getInternal i.1 i.2).toModel.unpack with
        | .finite .. => true
        | _ => false) = true := by decide +kernel
  have h := hall ⟨e, he⟩
  cases hu : (Float.exactlyRepresentablePowersOfTen.getInternal e he).toModel.unpack with
  | finite s m k hm => exact ⟨s, m, k, hm, rfl⟩
  | notANumber | infinity s | zero s =>
    rw [hu] at h
    exact (Bool.false_ne_true h).elim

theorem isNaN_ofScientific (m : Nat) (negative : Bool) (e : Nat) :
    (Float.ofScientific m negative e).isNaN = false := by
  unfold Float.ofScientific
  split
  · rename_i h
    obtain ⟨s, m', k, hm, hu⟩ := unpack_powerOfTen (e := e) (Nat.lt_succ_of_le h.2)
    have hn : (m.toUInt64.toFloat).toModel.unpack.isNaN = false := isNaN_pack (isNaN_ofInt _)
    dsimp only
    split
    · exact isNaN_pack ((congrArg (fun v => (UnpackedFloat.div .binary64 _ v).isNaN) hu).trans
        (isNaN_div hn ..))
    · exact isNaN_pack ((congrArg (fun v => (UnpackedFloat.mul .binary64 _ v).isNaN) hu).trans
        (isNaN_mul hn ..))
  · exact isNaN_pack (isNaN_unpackedOfScientific ..)

theorem isNaN_toFloat (d : Decimal) : d.toFloat.isNaN = false := by
  unfold Decimal.toFloat
  dsimp only
  split
  · decide
  · split
    · decide
    · exact isNaN_ofScientific ..

theorem isNaN_neg {x : Float} (h : x.isNaN = false) : (-x).isNaN = false := by
  have hneg {u : UnpackedFloat} (hu : u.isNaN = false) : u.neg.isNaN = false := by
    cases u with
    | notANumber => cases hu
    | infinity s | zero s | finite s m e hm => rfl
  exact isNaN_pack (hneg h)

/-! ## What is read -/

/-- The parts of a text that is read as a float. -/
structure FloatParts (cs : List Char) (x : Float) where
  fraction : List Char
  rest : List Char
  exponent : Int
  digits : Nat
  split : (splitSign cs).2.dropWhile Char.isDigit = '.' :: (fraction ++ rest) ∨
    fraction = [] ∧ (splitSign cs).2.dropWhile Char.isDigit = rest
  fraction_digits : ∀ c ∈ fraction, c.isDigit = true
  ne_nil : (splitSign cs).2.takeWhile Char.isDigit ++ fraction ≠ []
  read_exponent : readExponent rest = some exponent
  value : x = if (splitSign cs).1 then -Decimal.toFloat ⟨digits, exponent - fraction.length⟩
    else Decimal.toFloat ⟨digits, exponent - fraction.length⟩

theorem nonempty_floatParts {cs : List Char} {x : Float} (h : readFloat cs = some x) :
    Nonempty (FloatParts cs x) := by
  unfold readFloat at h
  dsimp only at h
  split at h
  · rename_i tail htail
    dsimp only at h
    split at h
    · cases h
    · rename_i hne
      obtain ⟨exponent, hexponent, h⟩ := Option.bind_eq_some_iff.1 h
      obtain ⟨digits, -, h⟩ := Option.map_eq_some_iff.1 h
      exact ⟨_, _, exponent, digits, .inl (by rw [htail, List.takeWhile_append_dropWhile]),
        fun c hc => List.all_eq_true.1 List.all_takeWhile c hc, hne, hexponent, h.symm⟩
  · dsimp only at h
    split at h
    · cases h
    · rename_i hne
      obtain ⟨exponent, hexponent, h⟩ := Option.bind_eq_some_iff.1 h
      obtain ⟨digits, -, h⟩ := Option.map_eq_some_iff.1 h
      exact ⟨_, _, exponent, digits, .inr ⟨rfl, rfl⟩, nofun, hne, hexponent, h.symm⟩

theorem isNaN_readFloat {cs : List Char} {x : Float} (h : readFloat cs = some x) :
    x.isNaN = false := by
  obtain ⟨p⟩ := nonempty_floatParts h
  rw [p.value]
  split
  · exact isNaN_neg (isNaN_toFloat _)
  · exact isNaN_toFloat _

/-- What is read is a number. -/
theorem isNaN_of_read? {w : String} {x : Float} (h : read? w = some (.float x)) :
    x.isNaN = false := by
  unfold read? readChars at h
  split at h
  · obtain ⟨n, -, hn⟩ := Option.map_eq_some_iff.1 h
    cases hn
  · obtain ⟨n, -, hn⟩ := Option.map_eq_some_iff.1 h
    cases hn
  · obtain ⟨n, -, hn⟩ := Option.map_eq_some_iff.1 h
    cases hn
  · rcases Option.or_eq_some_iff.1 h with h | ⟨-, h⟩
    · obtain ⟨n, -, hn⟩ := Option.map_eq_some_iff.1 h
      cases hn
    · obtain ⟨y, hy, hx⟩ := Option.map_eq_some_iff.1 h
      cases hx
      exact isNaN_readFloat hy

/-- The characters that numbers are spelled with. -/
def isNumeric (c : Char) : Bool :=
  ('0' ≤ c && c ≤ '9') || ('a' ≤ c && c ≤ 'z') || ('A' ≤ c && c ≤ 'Z') || c == '$' || c == '+' ||
    c == '-' || c == '.'

theorem isNumeric_of_isDigit {c : Char} (h : c.isDigit = true) : isNumeric c = true := by
  obtain ⟨hlow, hhigh⟩ : '0' ≤ c ∧ c ≤ '9' := Char.isDigit_iff_toNat.1 h
  simp [isNumeric, hlow, hhigh]

theorem isNumeric_of_digit? {base d : Nat} {c : Char} (h : Decimal.digit? base c = some d) :
    isNumeric c = true := by
  unfold Decimal.digit? at h
  dsimp only at h
  split at h
  · rename_i hc
    simp [isNumeric, hc]
  · split at h
    · rename_i hc
      simp [isNumeric, hc]
    · split at h
      · rename_i hc
        simp [isNumeric, hc]
      · cases h

theorem numeric_of_readNat {base n : Nat} {cs : List Char} (h : Decimal.readNat base cs = some n) :
    ∀ c ∈ cs, isNumeric c = true := by
  unfold Decimal.readNat at h
  generalize 0 = m at h
  induction cs generalizing m with
  | nil => exact nofun
  | cons c cs ih =>
    rw [List.foldlM_cons] at h
    obtain ⟨k, hk, h⟩ := Option.bind_eq_some_iff.1 h
    obtain ⟨d, hd, -⟩ := Option.map_eq_some_iff.1 hk
    intro c' hc'
    rcases List.mem_cons.1 hc' with rfl | hc'
    · exact isNumeric_of_digit? hd
    · exact ih k h c' hc'

theorem mem_splitSign {cs : List Char} {c : Char} (h : c ∈ cs) :
    c ∈ (splitSign cs).2 ∨ isNumeric c = true := by
  unfold splitSign
  split
  · rcases List.mem_cons.1 h with rfl | h
    · exact .inr (by decide)
    · exact .inl h
  · rcases List.mem_cons.1 h with rfl | h
    · exact .inr (by decide)
    · exact .inl h
  · exact .inl h

theorem ne_nil_of_splitSign {cs : List Char} (h : (splitSign cs).2 ≠ []) : cs ≠ [] := by
  rintro rfl
  exact h rfl

theorem numeric_of_readInteger {base : Nat} {cs : List Char} {n : Int64}
    (h : readInteger base cs = some n) : cs ≠ [] ∧ ∀ c ∈ cs, isNumeric c = true := by
  unfold readInteger at h
  dsimp only at h
  split at h
  · cases h
  · rename_i hne
    obtain ⟨m, hm, -⟩ := Option.bind_eq_some_iff.1 h
    exact ⟨ne_nil_of_splitSign hne, fun c hc =>
      (mem_splitSign hc).elim (numeric_of_readNat hm c) id⟩

theorem numeric_of_readExponent {cs : List Char} {k : Int} (h : readExponent cs = some k) :
    ∀ c ∈ cs, isNumeric c = true := by
  unfold readExponent at h
  split at h
  · exact nofun
  · dsimp only at h
    split at h
    · rename_i first rest hparts
      obtain ⟨hfirst, -, hdigits⟩ := hparts
      intro c hc
      rcases List.mem_cons.1 hc with rfl | hc
      · rcases hfirst with rfl | rfl <;> decide
      · exact (mem_splitSign hc).elim
          (fun hc => isNumeric_of_isDigit (List.all_eq_true.1 hdigits c hc)) id
    · cases h

theorem numeric_of_readFloat {cs : List Char} {x : Float} (h : readFloat cs = some x) :
    cs ≠ [] ∧ ∀ c ∈ cs, isNumeric c = true := by
  obtain ⟨p⟩ := nonempty_floatParts h
  have htail : ∀ c ∈ (splitSign cs).2.dropWhile Char.isDigit, isNumeric c = true := by
    intro c hc
    rcases p.split with hsplit | ⟨-, hsplit⟩
    · rw [hsplit] at hc
      rcases List.mem_cons.1 hc with rfl | hc
      · decide
      · exact (List.mem_append.1 hc).elim
          (fun hc => isNumeric_of_isDigit (p.fraction_digits c hc))
          (numeric_of_readExponent p.read_exponent c)
    · rw [hsplit] at hc
      exact numeric_of_readExponent p.read_exponent c hc
  refine ⟨ne_nil_of_splitSign fun hnil => ?_, fun c hc => (mem_splitSign hc).elim (fun hc => ?_) id⟩
  · have hne := p.ne_nil
    rw [hnil] at hne
    rcases p.split with hsplit | ⟨hfraction, -⟩
    · rw [hnil] at hsplit
      cases hsplit
    · exact hne hfraction
  · rw [← List.takeWhile_append_dropWhile (p := Char.isDigit) (l := (splitSign cs).2)] at hc
    exact (List.mem_append.1 hc).elim
      (fun hc => isNumeric_of_isDigit (List.all_eq_true.1 List.all_takeWhile c hc)) (htail c)

theorem numeric_of_read? {w : String} {n : Number} (h : read? w = some n) :
    w.toList ≠ [] ∧ ∀ c ∈ w.toList, isNumeric c = true := by
  have integer {base : Nat} {cs : List Char} {n : Number}
      (h : (readInteger base cs).map int = some n) : cs ≠ [] ∧ ∀ c ∈ cs, isNumeric c = true := by
    obtain ⟨m, hm, -⟩ := Option.map_eq_some_iff.1 h
    exact numeric_of_readInteger hm
  unfold read? readChars at h
  generalize w.toList = cs at h
  split at h
  · refine ⟨List.cons_ne_nil _ _, fun c hc => ?_⟩
    rcases List.mem_cons.1 hc with rfl | hc
    · decide
    · exact (integer h).2 c hc
  · refine ⟨List.cons_ne_nil _ _, fun c hc => ?_⟩
    rcases List.mem_cons.1 hc with rfl | hc
    · decide
    · rcases List.mem_cons.1 hc with rfl | hc
      · decide
      · exact (integer h).2 c hc
  · refine ⟨List.cons_ne_nil _ _, fun c hc => ?_⟩
    rcases List.mem_cons.1 hc with rfl | hc
    · decide
    · rcases List.mem_cons.1 hc with rfl | hc
      · decide
      · exact (integer h).2 c hc
  · rcases Option.or_eq_some_iff.1 h with h | ⟨-, h⟩
    · exact integer h
    · obtain ⟨x, hx, -⟩ := Option.map_eq_some_iff.1 h
      exact numeric_of_readFloat hx

/-- No such character is a blank, begins a comment or opens a string literal. -/
theorem plain_of_isNumeric {c : Char} (h : isNumeric c = true) :
    isBlank c = false ∧ c ≠ '\\' ∧ c ≠ '(' ∧ '"' ∉ Text.upperChar c ∧ '(' ∉ Text.upperChar c := by
  have hascii : c.toNat < 128 := by
    simp only [isNumeric, Bool.or_eq_true, Bool.and_eq_true, decide_eq_true_eq, beq_iff_eq,
      Char.le_def, UInt32.le_iff_toNat_le] at h
    show c.val.toNat < 128
    rcases h with ((((((⟨-, h⟩ | ⟨-, h⟩) | ⟨-, h⟩) | rfl) | rfl) | rfl) | rfl)
    · exact Nat.lt_of_le_of_lt h (by decide)
    · exact Nat.lt_of_le_of_lt h (by decide)
    · exact Nat.lt_of_le_of_lt h (by decide)
    all_goals decide
  have hall : ∀ n < 128, isNumeric (Char.ofNat n) = true →
      isBlank (Char.ofNat n) = false ∧ Char.ofNat n ≠ '\\' ∧ Char.ofNat n ≠ '(' ∧
        '"' ∉ Text.upperChar (Char.ofNat n) ∧ '(' ∉ Text.upperChar (Char.ofNat n) := by
    decide
  simpa only [Char.ofNat_toNat] using hall c.toNat hascii (by rwa [Char.ofNat_toNat])

/-! ## What is printed -/

/-- A float that is a number is read back, if it is when it is finite. -/
theorem read?_text_of_not_isNaN {x : Float} (hnan : x.isNaN = false)
    (hfinite : x.isFinite = true → read? (floatText x) = some (.float x)) :
    read? (float x).text = some (.float x) := by
  unfold text
  dsimp only
  split
  · rename_i hinf
    rcases eq_of_isInf hinf with rfl | rfl
    · decide
    · decide
  · rename_i hinf
    refine hfinite ?_
    change UnpackedFloat.isNaN x.toModel.unpack = false at hnan
    change ¬ UnpackedFloat.isInf x.toModel.unpack = true at hinf
    change UnpackedFloat.isFinite x.toModel.unpack = true
    cases hu : x.toModel.unpack with
    | notANumber =>
      rw [hu] at hnan
      cases hnan
    | infinity s =>
      rw [hu] at hinf
      exact absurd rfl hinf
    | zero s | finite s m e hm => rfl

/-- A number that was read is read back. -/
theorem read?_text {w : String} {n : Number} (h : read? w = some n)
    (hfinite : ∀ x, n = .float x → x.isFinite = true → read? (floatText x) = some (.float x)) :
    read? n.text = some n := by
  cases n with
  | int n => exact read?_int n
  | float x => exact read?_text_of_not_isNaN (isNaN_of_read? h) (hfinite x rfl)

end Number

end StackLang
