import Mathlib.Algebra.Group.Int.Defs
import Mathlib.Data.List.Induction
import StackLang.Proofs.Token.Numbers

/-!
# The grammar of numbers

The reader tries one spelling after the other.  What it reads, and as what, is a grammar: an integer
is hexadecimal digits behind a prefix, or decimal ones, and fits into 64 bits; a float is digits
with an optional point and an optional exponent, where no integer and no prefix is in the way; all
else is no number.

* `Numeral`, `SignedNumeral`, `IntegerLiteral`: the spellings of an integer, with its value.
* `Exponent`, `FloatLiteral`: the spellings of a float.
* `readInteger_eq_some_iff`: signed numerals.
* `decimalNotation_of_readFloat`, `isSome_readFloat`: floats.
* `read?_iff_literal`: the whole reader.
-/

namespace StackLang.Number

/-! ## The grammar -/

/-- A digit and its value; a letter may be of either case. -/
structure Digit (base : Nat) (c : Char) (d : Nat) : Prop where
  lt : d < base
  spelling : c = Nat.digitChar d ∨ c = (Nat.digitChar d).toUpper

/-- One or more digits and their value. -/
inductive Numeral (base : Nat) : List Char → Nat → Prop
  | single {c : Char} {d : Nat} (h : Digit base c d) : Numeral base [c] d
  | snoc {cs : List Char} {c : Char} {n d : Nat} (hcs : Numeral base cs n) (hc : Digit base c d) :
    Numeral base (cs ++ [c]) (base * n + d)

/-- An optional sign, and the factor that it stands for. -/
inductive Sign : List Char → Int → Prop
  | none : Sign [] 1
  | plus : Sign ['+'] 1
  | minus : Sign ['-'] (-1)

/-- A numeral behind an optional sign. -/
def SignedNumeral (base : Nat) (cs : List Char) (value : Int) : Prop :=
  ∃ sign digits s n, Sign sign s ∧ Numeral base digits n ∧ cs = sign ++ digits ∧ value = s * n

/-- Behind such a prefix only a hexadecimal integer can stand. -/
def HexPrefixed (cs : List Char) : Prop :=
  ∃ x rest, (x = 'x' ∨ x = 'X') ∧ cs = '0' :: x :: rest

/-- The spellings of an integer of 64 bits. -/
structure IntegerLiteral (cs : List Char) (value : Int) : Prop where
  fits : -2 ^ 63 ≤ value ∧ value < 2 ^ 63
  spelling :
    (∃ rest, cs = '$' :: rest ∧ SignedNumeral 16 rest value) ∨
    (∃ x rest, (x = 'x' ∨ x = 'X') ∧ cs = '0' :: x :: rest ∧ SignedNumeral 16 rest value) ∨
    SignedNumeral 10 cs value

/-- Nothing, or `e` or `E` with an optional sign and at least one digit. -/
def Exponent (cs : List Char) : Prop :=
  cs = [] ∨ ∃ e rest value, (e = 'e' ∨ e = 'E') ∧ cs = e :: rest ∧ SignedNumeral 10 rest value

/-- An optional sign, digits with an optional point, at least one digit in all, and an optional
exponent. -/
def DecimalNotation (cs : List Char) : Prop :=
  ∃ sign s whole point fraction exponent, Sign sign s ∧
    (∀ c ∈ whole ++ fraction, c.isDigit = true) ∧ whole ++ fraction ≠ [] ∧
    (point = [] ∧ fraction = [] ∨ point = ['.']) ∧ Exponent exponent ∧
    cs = sign ++ (whole ++ (point ++ (fraction ++ exponent)))

/-- The spellings of a float. -/
structure FloatLiteral (cs : List Char) : Prop where
  no_integer : ∀ value, ¬ IntegerLiteral cs value
  no_dollar : cs.head? ≠ some '$'
  no_prefix : ¬ HexPrefixed cs
  spelling : DecimalNotation cs

/-! ## Integers -/

theorem digit?_eq_some_iff {base : Nat} (hbase : base ≤ 16) {c : Char} {d : Nat} :
    Decimal.digit? base c = some d ↔ Digit base c d := by
  unfold Decimal.digit?
  simp only [Option.filter_eq_some_iff, decide_eq_true_eq]
  constructor
  · rintro ⟨hvalue, hd⟩
    have hlt : d < 16 := Nat.lt_of_lt_of_le hd hbase
    refine ⟨hd, ?_⟩
    split at hvalue
    · rename_i hc
      have hbounds : 48 ≤ c.toNat ∧ c.toNat ≤ 57 := hc
      have hcode : c.toNat = 48 + d := by simp at hvalue; omega
      rw [← Char.ofNat_toNat c, hcode]
      exact .inl ((by decide : ∀ d < 10, Char.ofNat (48 + d) = Nat.digitChar d) d (by omega))
    · split at hvalue
      · rename_i hc
        have hbounds : 97 ≤ c.toNat ∧ c.toNat ≤ 122 := hc
        have hcode : c.toNat = 87 + d := by simp at hvalue; omega
        rw [← Char.ofNat_toNat c, hcode]
        exact .inl ((by decide : ∀ d < 16, 10 ≤ d → Char.ofNat (87 + d) = Nat.digitChar d) d hlt
          (by omega))
      · split at hvalue
        · rename_i hc
          have hbounds : 65 ≤ c.toNat ∧ c.toNat ≤ 90 := hc
          have hcode : c.toNat = 55 + d := by simp at hvalue; omega
          rw [← Char.ofNat_toNat c, hcode]
          exact .inr ((by decide :
            ∀ d < 16, 10 ≤ d → Char.ofNat (55 + d) = (Nat.digitChar d).toUpper) d hlt (by omega))
        · cases hvalue
  · rintro ⟨hd, hspelling⟩
    refine ⟨?_, hd⟩
    have hlt : d < 16 := Nat.lt_of_lt_of_le hd hbase
    clear hd
    rcases hspelling with rfl | rfl
    · revert d
      decide
    · revert d
      decide

/-- A digit is no sign. -/
theorem Digit.ne_sign {base : Nat} (hbase : base ≤ 16) {c : Char} {d : Nat} (h : Digit base c d) :
    c ≠ '-' ∧ c ≠ '+' := by
  have hnumeric := (digit?_eq_some_iff hbase).2 h
  constructor
  · rintro rfl
    cases hnumeric
  · rintro rfl
    cases hnumeric

theorem Numeral.ne_nil {base n : Nat} {cs : List Char} (h : Numeral base cs n) : cs ≠ [] := by
  cases h with
  | single => exact List.cons_ne_nil _ _
  | snoc => exact List.concat_ne_nil _ _

/-- The value of a numeral is that of its digits, the first one counting most. -/
theorem readNat_eq_some_iff {base : Nat} (hbase : base ≤ 16) {cs : List Char} (hne : cs ≠ [])
    {n : Nat} : Decimal.readNat base cs = some n ↔ Numeral base cs n := by
  constructor
  · intro h
    induction cs using List.reverseRecOn generalizing n with
    | nil => exact absurd rfl hne
    | append_singleton cs c ih =>
      rw [Decimal.readNat_append_singleton] at h
      obtain ⟨m, hm, h⟩ := Option.bind_eq_some_iff.1 h
      obtain ⟨d, hd, rfl⟩ := Option.map_eq_some_iff.1 h
      have hdigit := (digit?_eq_some_iff hbase).1 hd
      by_cases hcs : cs = []
      · subst hcs
        obtain rfl : 0 = m := Option.some.inj hm
        simpa using Numeral.single hdigit
      · exact .snoc (ih hcs hm) hdigit
  · intro h
    induction h with
    | single h =>
      simp [Decimal.readNat, (digit?_eq_some_iff hbase).2 h]
    | snoc hcs hc ih =>
      rw [Decimal.readNat_append_singleton, ih hcs.ne_nil, Option.bind_some,
        (digit?_eq_some_iff hbase).2 hc]
      rfl

/-- A sign is told from what follows it. -/
theorem splitSign_append {sign digits : List Char} {s : Int} (hs : Sign sign s)
    (hhead : ∀ c ∈ digits.head?, c ≠ '-' ∧ c ≠ '+') :
    splitSign (sign ++ digits) = (decide (s < 0), digits) := by
  cases hs with
  | plus | minus => rfl
  | none =>
    show splitSign digits = (false, digits)
    unfold splitSign
    split
    · exact absurd rfl (hhead _ rfl).1
    · exact absurd rfl (hhead _ rfl).2
    · rfl

/-- Any text begins with an optional sign. -/
theorem exists_sign (cs : List Char) :
    ∃ sign s, Sign sign s ∧ cs = sign ++ (splitSign cs).2 ∧ (splitSign cs).1 = decide (s < 0) := by
  unfold splitSign
  split
  · exact ⟨_, _, .minus, rfl, rfl⟩
  · exact ⟨_, _, .plus, rfl, rfl⟩
  · exact ⟨_, _, .none, rfl, rfl⟩

theorem Sign.mul_eq {sign : List Char} {s : Int} (hs : Sign sign s) (n : Int) :
    s * n = if s < 0 then -n else n := by
  cases hs <;> simp

/-- The first digit of a numeral is not taken for a sign. -/
theorem Numeral.head_ne_sign {base n : Nat} (hbase : base ≤ 16) {cs : List Char}
    (h : Numeral base cs n) : ∀ c ∈ cs.head?, c ≠ '-' ∧ c ≠ '+' := by
  induction h with
  | single h =>
    rintro _ ⟨⟩
    exact h.ne_sign hbase
  | snoc hcs hc ih =>
    intro c hc
    obtain ⟨first, rest, rfl⟩ := List.exists_cons_of_ne_nil hcs.ne_nil
    exact ih c hc

theorem readInteger_eq_some_iff {base : Nat} (hbase : base ≤ 16) {cs : List Char} {n : Int64} :
    readInteger base cs = some n ↔ SignedNumeral base cs n.toInt := by
  constructor
  · intro h
    obtain ⟨sign, s, hs, hcs, hnegative⟩ := exists_sign cs
    unfold readInteger at h
    dsimp only at h
    split at h
    · cases h
    · rename_i hne
      obtain ⟨m, hm, h⟩ := Option.bind_eq_some_iff.1 h
      obtain ⟨hfits, hvalue⟩ := Option.ite_none_right_eq_some.1 h
      cases hvalue
      refine ⟨sign, _, s, m, hs, (readNat_eq_some_iff hbase hne).1 hm, hcs, ?_⟩
      rw [Int64.toInt_minValue, Int64.toInt_maxValue] at hfits
      rw [Int64.toInt_ofInt_of_le (by omega) (by omega), hs.mul_eq, hnegative]
      simp
  · rintro ⟨sign, digits, s, m, hs, hm, rfl, hvalue⟩
    have hread := (readNat_eq_some_iff hbase hm.ne_nil).2 hm
    have hfits := And.intro n.minValue_le_toInt n.toInt_le
    have hsigned : (if decide (s < 0) = true then -(m : Int) else m) = n.toInt := by
      rw [hvalue, hs.mul_eq]
      simp
    simp only [readInteger, splitSign_append hs (hm.head_ne_sign hbase), if_neg hm.ne_nil, hread,
      Option.bind_some, hsigned, if_pos hfits, Int64.ofInt_toInt]

/-- What is behind the dollar sign or the hexadecimal prefix is a hexadecimal integer, or else it
is decimal. -/
theorem integerLiteral_iff {cs : List Char} {n : Int64} :
    IntegerLiteral cs n.toInt ↔
      (∃ rest, cs = '$' :: rest ∧ readInteger 16 rest = some n) ∨
      (∃ x rest, (x = 'x' ∨ x = 'X') ∧ cs = '0' :: x :: rest ∧ readInteger 16 rest = some n) ∨
      readInteger 10 cs = some n := by
  have hfits : -2 ^ 63 ≤ n.toInt ∧ n.toInt < 2 ^ 63 := ⟨n.le_toInt, n.toInt_lt⟩
  simp only [readInteger_eq_some_iff (show 16 ≤ 16 by decide),
    readInteger_eq_some_iff (show 10 ≤ 16 by decide)]
  exact ⟨IntegerLiteral.spelling, fun h => ⟨hfits, h⟩⟩

/-! ## Floats -/

theorem isDigit_of_numeral {cs : List Char} {n : Nat} (h : Numeral 10 cs n) :
    ∀ c ∈ cs, c.isDigit = true := by
  have digit {c : Char} {d : Nat} (h : Digit 10 c d) : c.isDigit = true := by
    obtain ⟨hd, rfl | rfl⟩ := h
    · exact (by decide : ∀ d < 10, (Nat.digitChar d).isDigit = true) d hd
    · exact (by decide : ∀ d < 10, (Nat.digitChar d).toUpper.isDigit = true) d hd
  induction h with
  | single h => exact List.forall_mem_singleton.2 (digit h)
  | snoc _ hc ih => exact List.forall_mem_append.2 ⟨ih, List.forall_mem_singleton.2 (digit hc)⟩

/-- Any decimal digits are a numeral. -/
theorem exists_numeral {cs : List Char} (hne : cs ≠ []) (h : ∀ c ∈ cs, c.isDigit = true) :
    ∃ n, Numeral 10 cs n :=
  ⟨_, (readNat_eq_some_iff (by decide) hne).1 (readNat_of_digits h)⟩

theorem isSome_readExponent_iff {cs : List Char} : (readExponent cs).isSome ↔ Exponent cs := by
  cases cs with
  | nil => exact ⟨fun _ => .inl rfl, fun _ => rfl⟩
  | cons e rest =>
    have hsome : (readExponent (e :: rest)).isSome ↔ (e = 'e' ∨ e = 'E') ∧
        (splitSign rest).2 ≠ [] ∧ (splitSign rest).2.all Char.isDigit := by
      unfold readExponent
      dsimp only
      split <;> simp_all
    rw [hsome]
    constructor
    · rintro ⟨he, hne, hdigits⟩
      obtain ⟨sign, s, hs, hrest, -⟩ := exists_sign rest
      obtain ⟨n, hn⟩ := exists_numeral hne (List.all_eq_true.1 hdigits)
      exact .inr ⟨e, rest, s * n, he, rfl, sign, _, s, n, hs, hn, hrest, rfl⟩
    · rintro (hnil | ⟨_, _, _, he, ⟨⟩, sign, digits, s, n, hs, hn, rfl, -⟩)
      · cases hnil
      · rw [splitSign_append hs (hn.head_ne_sign (by decide))]
        exact ⟨he, hn.ne_nil, List.all_eq_true.2 (isDigit_of_numeral hn)⟩

/-- An exponent continues neither digits nor a fraction. -/
theorem Exponent.head_ne {cs : List Char} (h : Exponent cs) :
    ∀ c ∈ cs.head?, c.isDigit = false ∧ c ≠ '.' := by
  rcases h with rfl | ⟨_, rest, value, rfl | rfl, rfl, -⟩
  · exact nofun
  · rintro _ ⟨⟩
    decide
  · rintro _ ⟨⟩
    decide

/-- Digits are taken up to the first character that is none. -/
theorem span_digits {digits rest : List Char} (h : ∀ c ∈ digits, c.isDigit = true)
    (hrest : ∀ c ∈ rest.head?, c.isDigit = false) :
    (digits ++ rest).takeWhile Char.isDigit = digits ∧
      (digits ++ rest).dropWhile Char.isDigit = rest := by
  rw [List.takeWhile_append_of_pos h, List.dropWhile_append_of_pos h]
  cases rest with
  | nil => simp
  | cons c rest => simp [hrest c rfl]

/-- What is read has been taken apart into the pieces of the notation. -/
theorem decimalNotation_of_readFloat {cs : List Char} {x : Float} (hx : readFloat cs = some x) :
    DecimalNotation cs := by
  obtain ⟨p⟩ := nonempty_floatParts hx
  obtain ⟨sign, s, hs, hcs, -⟩ := exists_sign cs
  have hexponent : Exponent p.rest :=
    isSome_readExponent_iff.1 (by rw [p.read_exponent]; rfl)
  have hdigits : ∀ c ∈ (splitSign cs).2.takeWhile Char.isDigit ++ p.fraction,
      c.isDigit = true :=
    List.forall_mem_append.2 ⟨List.all_eq_true.1 List.all_takeWhile, p.fraction_digits⟩
  have hbody : (splitSign cs).2 = (splitSign cs).2.takeWhile Char.isDigit ++
      (splitSign cs).2.dropWhile Char.isDigit := List.takeWhile_append_dropWhile.symm
  rcases p.split with hsplit | ⟨hfraction, hsplit⟩
  · refine ⟨sign, s, _, ['.'], p.fraction, p.rest, hs, hdigits, p.ne_nil, .inr rfl, hexponent, ?_⟩
    rw [hsplit] at hbody
    rw [List.singleton_append, ← hbody]
    exact hcs
  · refine ⟨sign, s, _, [], p.fraction, p.rest, hs, hdigits, p.ne_nil, .inl ⟨rfl, hfraction⟩,
      hexponent, ?_⟩
    rw [hsplit] at hbody
    rw [hfraction, List.nil_append, List.nil_append, ← hbody]
    exact hcs

/-- Digits with an optional point begin with no sign. -/
theorem head_ne_sign {whole point fraction rest : List Char}
    (hwhole : ∀ c ∈ whole, c.isDigit = true) (hne : whole ++ fraction ≠ [])
    (hpoint : point = [] ∧ fraction = [] ∨ point = ['.']) :
    ∀ c ∈ (whole ++ (point ++ rest)).head?, c ≠ '-' ∧ c ≠ '+' := by
  cases whole with
  | nil =>
    rcases hpoint with ⟨-, hnil⟩ | rfl
    · exact absurd hnil hne
    · rintro _ ⟨⟩
      decide
  | cons c whole =>
    rintro _ ⟨⟩
    have hc := hwhole c List.mem_cons_self
    constructor
    · rintro rfl
      cases hc
    · rintro rfl
      cases hc

/-- The pieces are found where they are: each ends at the first character that does not go on
with it. -/
theorem isSome_readFloat {cs : List Char} (h : DecimalNotation cs) : (readFloat cs).isSome := by
  obtain ⟨sign, s, whole, point, fraction, exponent, hs, hdigits, hne, hpoint, hexponent, rfl⟩ := h
  obtain ⟨hwhole, hfraction⟩ := List.forall_mem_append.1 hdigits
  have hbehind : ∀ c ∈ (point ++ (fraction ++ exponent)).head?, c.isDigit = false := by
    rcases hpoint with ⟨rfl, rfl⟩ | rfl
    · exact fun c hc => (hexponent.head_ne c hc).1
    · rintro _ ⟨⟩
      decide
  obtain ⟨hwhole_eq, hbehind_eq⟩ := span_digits hwhole hbehind
  obtain ⟨hfraction_eq, hexponent_eq⟩ :=
    span_digits hfraction fun c hc => (hexponent.head_ne c hc).1
  obtain ⟨k, hk⟩ := Option.isSome_iff_exists.1 (isSome_readExponent_iff.2 hexponent)
  have hread := readNat_of_digits hdigits
  unfold readFloat
  rw [splitSign_append hs (head_ne_sign hwhole hne hpoint)]
  dsimp only
  rw [hwhole_eq, hbehind_eq]
  rcases hpoint with ⟨rfl, rfl⟩ | rfl
  · split
    · rename_i rest hrest
      exact absurd rfl (hexponent.head_ne '.' (congrArg List.head? hrest)).2
    · dsimp only
      rw [if_neg hne, hread]
      simp [hk]
  · split
    · rename_i rest hrest
      obtain rfl : fraction ++ exponent = rest := (List.cons.inj hrest).2
      dsimp only
      rw [hfraction_eq, hexponent_eq, if_neg hne, hk, hread]
      rfl
    · rename_i hnone
      exact absurd rfl (hnone _)

/-! ## The reader -/

/-- Neither a dollar sign nor a letter is in a decimal integer. -/
theorem mem_of_signedNumeral {cs : List Char} {value : Int} (h : SignedNumeral 10 cs value) :
    ∀ c ∈ cs, c.isDigit = true ∨ c = '+' ∨ c = '-' := by
  obtain ⟨sign, digits, s, n, hs, hn, rfl, -⟩ := h
  refine List.forall_mem_append.2
    ⟨fun c hc => .inr ?_, fun c hc => .inl (isDigit_of_numeral hn c hc)⟩
  cases hs with
  | none => cases hc
  | plus => exact .inl (List.mem_singleton.1 hc)
  | minus => exact .inr (List.mem_singleton.1 hc)

theorem readInteger_ten_eq_none {cs : List Char} {c : Char} (hc : c ∈ cs)
    (hletter : c = '$' ∨ c = 'x' ∨ c = 'X') : readInteger 10 cs = none := by
  rw [Option.eq_none_iff_forall_ne_some]
  intro n hn
  have hmem := mem_of_signedNumeral ((readInteger_eq_some_iff (by decide)).1 hn) c hc
  rcases hletter with rfl | rfl | rfl <;> revert hmem <;> decide

/-- An integer has only one of the spellings, and it is the one that is tried. -/
theorem readChars_eq_int_iff {cs : List Char} {n : Int64} :
    readChars cs = some (.int n) ↔ IntegerLiteral cs n.toInt := by
  have hmap {r : Option Int64} : r.map int = some (.int n) ↔ r = some n := by
    simp [Option.map_eq_some_iff]
  rw [integerLiteral_iff]
  unfold readChars
  split
  · rename_i rest
    rw [hmap, readInteger_ten_eq_none List.mem_cons_self (.inl rfl)]
    simp
  · rename_i c rest
    rw [hmap, readInteger_ten_eq_none (c := 'x') (by simp) (by simp)]
    simp
  · rename_i c rest
    rw [hmap, readInteger_ten_eq_none (c := 'X') (by simp) (by simp)]
    simp
  · rename_i hdollar hx hX
    have hdecimal : ((readInteger 10 cs).map int).or ((readFloat cs).map float) =
        some (.int n) ↔ readInteger 10 cs = some n := by
      simp [Option.or_eq_some_iff]
    rw [hdecimal]
    refine ⟨fun h => .inr (.inr h), ?_⟩
    rintro (⟨rest, rfl, -⟩ | ⟨x, rest, hletter, rfl, h⟩ | h)
    · exact (hdollar rest rfl).elim
    · cases rest with
      | nil => cases h
      | cons c rest =>
        rcases hletter with rfl | rfl
        · exact (hx c rest rfl).elim
        · exact (hX c rest rfl).elim
    · exact h

/-- What fits into 64 bits is read. -/
theorem exists_of_integerLiteral {cs : List Char} {value : Int} (h : IntegerLiteral cs value) :
    ∃ n : Int64, n.toInt = value ∧ readChars cs = some (.int n) := by
  have hvalue : (Int64.ofInt value).toInt = value := Int64.toInt_ofInt_of_le h.fits.1 h.fits.2
  exact ⟨.ofInt value, hvalue, readChars_eq_int_iff.2 (hvalue.symm ▸ h)⟩

/-- A hexadecimal prefix alone is no number either. -/
theorem readFloat_hexStart {x : Char} (h : x = 'x' ∨ x = 'X') : readFloat ['0', x] = none := by
  rcases h with rfl | rfl <;> rfl

theorem readChars_eq_float_iff {cs : List Char} :
    (∃ x, readChars cs = some (.float x)) ↔ FloatLiteral cs := by
  constructor
  · rintro ⟨x, hx⟩
    have hno (value : Int) (h : IntegerLiteral cs value) : False := by
      obtain ⟨n, -, hn⟩ := exists_of_integerLiteral h
      rw [hx] at hn
      cases hn
    unfold readChars at hx
    split at hx
    · simp at hx
    · simp at hx
    · simp at hx
    · rename_i hdollar hsmall hlarge
      obtain ⟨hten, hx⟩ : readInteger 10 cs = none ∧ readFloat cs = some x := by
        simpa [Option.or_eq_some_iff] using hx
      refine ⟨hno, fun hhead => ?_, ?_, decimalNotation_of_readFloat hx⟩
      · cases cs with
        | nil => cases hhead
        | cons c rest =>
          cases hhead
          exact hdollar rest rfl
      · rintro ⟨y, rest, hletter, rfl⟩
        cases rest with
        | nil =>
          rw [readFloat_hexStart hletter] at hx
          cases hx
        | cons c rest =>
          rcases hletter with rfl | rfl
          · exact hsmall c rest rfl
          · exact hlarge c rest rfl
  · rintro ⟨hno, hdollar, hprefix, hspelling⟩
    obtain ⟨x, hx⟩ := Option.isSome_iff_exists.1 (isSome_readFloat hspelling)
    have hten : readInteger 10 cs = none := by
      rw [Option.eq_none_iff_forall_ne_some]
      intro n hn
      exact hno _ (integerLiteral_iff.2 (.inr (.inr hn)))
    refine ⟨x, ?_⟩
    unfold readChars
    split
    · exact absurd rfl hdollar
    · exact absurd ⟨_, _, .inl rfl, rfl⟩ hprefix
    · exact absurd ⟨_, _, .inr rfl, rfl⟩ hprefix
    · rw [hten, hx]
      rfl

/-- The reader gives an integer for exactly its spellings, a float for exactly those of a float, and
nothing for any other text; an integer that is written in decimal is read back. -/
theorem read?_iff_literal (s : String) :
    (∀ value : Int, (∃ n : Int64, n.toInt = value ∧ read? s = some (.int n)) ↔
      IntegerLiteral s.toList value) ∧
    ((∃ x, read? s = some (.float x)) ↔ FloatLiteral s.toList) ∧
    (read? s = none ↔ (∀ value, ¬ IntegerLiteral s.toList value) ∧ ¬ FloatLiteral s.toList) ∧
    ∀ n : Int64, read? (toString n.toInt) = some (.int n) := by
  have hint (value : Int) : (∃ n : Int64, n.toInt = value ∧ read? s = some (.int n)) ↔
      IntegerLiteral s.toList value := by
    refine ⟨?_, exists_of_integerLiteral⟩
    rintro ⟨n, rfl, hn⟩
    exact readChars_eq_int_iff.1 hn
  refine ⟨hint, readChars_eq_float_iff, ⟨fun h => ⟨fun value hvalue => ?_, fun hfloat => ?_⟩, ?_⟩,
    read?_int⟩
  · obtain ⟨n, -, hn⟩ := (hint value).2 hvalue
    rw [h] at hn
    cases hn
  · obtain ⟨x, hx⟩ := readChars_eq_float_iff.2 hfloat
    rw [show readChars s.toList = none from h] at hx
    cases hx
  · rintro ⟨hno, hfloat⟩
    cases hr : read? s with
    | none => rfl
    | some number =>
      cases number with
      | int n => exact absurd ((hint _).1 ⟨n, rfl, hr⟩) (hno _)
      | float x => exact absurd (readChars_eq_float_iff.1 ⟨x, hr⟩) hfloat

end StackLang.Number
