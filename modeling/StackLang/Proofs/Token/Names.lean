import StackLang.Proofs.Token.Numbers

/-!
# Names in a source

What can be written behind a defining word is a text without blanks that begins no comment and opens
no string literal.  It may look like a number, which is a name all the same.

* `IsName`: a text that is read as one name.
* `IsName.uppercase`: in upper case it still is one.
* `isName_of_name?`: the names that tokens give are such texts, floats included.
-/

namespace StackLang

/-! ## Upper case -/

namespace Text

/-- The characters that end a word or begin a comment. -/
def marks : List Char :=
  [' ', '\t', '\r', '\n', '\\', '(']

/-- None of them is a form of another character. -/
theorem eq_of_mem_upperChar {c d : Char} (h : d ∈ upperChar c) (hd : d ∈ marks) : c = d := by
  unfold upperChar at h
  split at h
  · have hupper : ∀ n < 128, (Char.ofNat n).toUpper ∈ marks →
        Char.ofNat n = (Char.ofNat n).toUpper := by decide
    obtain rfl := List.mem_singleton.1 h
    have hc := hupper c.toNat ‹_›
    rw [Char.ofNat_toNat] at hc
    exact hc hd
  · split at h
    · rename_i e _ hfind
      have hforms : ∀ e ∈ caseExpansions, ∀ n ∈ e.2, Char.ofNat n ∉ marks := by decide
      obtain ⟨n, hn, rfl⟩ := List.mem_map.1 h
      exact (hforms _ (List.mem_of_find?_eq_some hfind) n hn hd).elim
    · split at h
      · rename_i r hfind
        have hmisses : (caseRanges.all fun r =>
            marks.all fun d => r.misses ⟨d.toNat, d.toNat, 1, 0⟩) = true := by
          decide
        obtain rfl := List.mem_singleton.1 h
        have hr := List.find?_some hfind
        have hmarks := List.all_eq_true.1 hmisses r (List.mem_of_find?_eq_some hfind)
        have hholds := CaseRange.holds_image_eq_false (List.all_eq_true.1 hmarks _ hd) hr
        by_cases hv : (r.image c.toNat).isValidChar
        · have hn : (Char.ofNat (c.toNat + r.shift).toNat).toNat = r.image c.toNat :=
            congrArg Char.toNat (dif_pos hv)
          rw [hn] at hholds
          simp [CaseRange.holds] at hholds
        · rw [show Char.ofNat (c.toNat + r.shift).toNat = '\x00' from dif_neg hv] at hd
          exact absurd hd (by decide)
      · exact (List.mem_singleton.1 h).symm

theorem upperChar_ne_nil (c : Char) : upperChar c ≠ [] := by
  unfold upperChar
  split
  · exact List.cons_ne_nil _ _
  · split
    · rename_i hfind
      have hforms : ∀ e ∈ caseExpansions, e.2 ≠ [] := by decide
      simpa using hforms _ (List.mem_of_find?_eq_some hfind)
    · split <;> exact List.cons_ne_nil _ _

end Text

/-- No blank comes about in upper case. -/
theorem isBlank_of_mem_uppercase {w : String} (h : ∀ c ∈ w.toList, isBlank c = false) :
    ∀ d ∈ (Text.uppercase w).toList, isBlank d = false := by
  rw [Text.toList_uppercase]
  intro d hd
  obtain ⟨c, hc, hd⟩ := List.mem_flatMap.1 hd
  rw [Bool.eq_false_iff]
  intro hblank
  have hmark : d ∈ Text.marks := by
    simp only [isBlank, Bool.or_eq_true, beq_iff_eq] at hblank
    rcases hblank with ((rfl | rfl) | rfl) | rfl <;> decide
  rw [← Text.eq_of_mem_upperChar hd hmark, h c hc] at hblank
  cases hblank

/-- A blank, and what begins a comment, stay what they are in upper case, and nothing else becomes
one of these. -/
theorem Cursor.Spelled.uppercase {w : String} (h : Spelled w.toList) :
    Spelled (Text.uppercase w).toList := by
  have hblanks := isBlank_of_mem_uppercase h.blanks
  rw [Text.toList_uppercase] at hblanks ⊢
  obtain ⟨first, rest, hw⟩ := List.exists_cons_of_ne_nil h.ne_nil
  obtain ⟨form, forms, hform⟩ := List.exists_cons_of_ne_nil (Text.upperChar_ne_nil first)
  have hflat : w.toList.flatMap Text.upperChar =
      form :: (forms ++ rest.flatMap Text.upperChar) := by
    rw [hw, List.flatMap_cons, hform, List.cons_append]
  refine ⟨by simp [hflat], hblanks, fun hhead => ?_, fun hparen => ?_⟩
  · rw [hflat] at hhead
    obtain rfl : form = '\\' := Option.some.inj hhead
    have hfirst := Text.eq_of_mem_upperChar (hform ▸ List.mem_cons_self) (by decide)
    exact h.head (by rw [hw, hfirst]; rfl)
  · rw [hflat] at hparen
    obtain ⟨rfl, hnil⟩ := List.cons.inj hparen
    have hfirst := Text.eq_of_mem_upperChar (hform ▸ List.mem_cons_self) (by decide)
    cases rest with
    | nil => exact h.comment (by rw [hw, hfirst])
    | cons c rest =>
      have hne := Text.upperChar_ne_nil c
      simp [hne] at hnil

/-! ## Names -/

/-- The text is read as one name wherever a blank is behind it. -/
structure IsName (name : String) : Prop where
  spelled : Cursor.Spelled name.toList
  opens : StringForm.ofWord? name = none

theorem IsName.uppercase {name : String} (h : IsName name) : IsName (Text.uppercase name) where
  spelled := h.spelled.uppercase
  opens := by
    have ho := h.opens
    unfold StringForm.ofWord? at ho ⊢
    rwa [Text.uppercase_uppercase]

/-! ## Numbers -/

namespace Number

/-- A text of the characters of numbers is a name. -/
theorem isName_of_numeric {w : String}
    (h : w.toList ≠ [] ∧ ∀ c ∈ w.toList, isNumeric c = true) : IsName w := by
  obtain ⟨hne, hnumeric⟩ := h
  refine ⟨⟨hne, fun c hc => (plain_of_isNumeric (hnumeric c hc)).1, fun hhead => ?_, fun heq => ?_⟩,
    ?_⟩
  · exact (plain_of_isNumeric (hnumeric _ (List.mem_of_mem_head? hhead))).2.1 rfl
  · exact (plain_of_isNumeric (hnumeric '(' (by rw [heq]; exact List.mem_cons_self))).2.2.1 rfl
  · unfold StringForm.ofWord?
    rw [List.find?_eq_none]
    intro form _ hform
    have hmem {c : Char} (hc : c ∈ form.opening.toList) :
        ∃ d ∈ w.toList, c ∈ Text.upperChar d := by
      rw [eq_of_beq hform, Text.toList_uppercase] at hc
      exact List.mem_flatMap.1 hc
    cases form with
    | print | push =>
      obtain ⟨d, hd, hc⟩ := hmem (c := '"') (by decide)
      exact (plain_of_isNumeric (hnumeric d hd)).2.2.2.1 hc
    | display =>
      obtain ⟨d, hd, hc⟩ := hmem (c := '(') (by decide)
      exact (plain_of_isNumeric (hnumeric d hd)).2.2.2.2 hc

theorem numeric_of_all {w : String} (h : (!w.toList.isEmpty && w.toList.all isNumeric) = true) :
    w.toList ≠ [] ∧ ∀ c ∈ w.toList, isNumeric c = true := by
  rw [Bool.and_eq_true, Bool.not_eq_true', List.isEmpty_eq_false_iff, List.all_eq_true] at h
  exact h

theorem numeric_toDigits (n : Nat) : ∀ c ∈ Nat.toDigits 10 n, isNumeric c = true := fun _ hc =>
  isNumeric_of_isDigit (Nat.isDigit_of_mem_toDigits (by decide) (by decide) hc)

theorem numeric_toString (n : Int) : ∀ c ∈ (toString n).toList, isNumeric c = true := by
  rw [Int.toString_eq_repr, Int.repr_eq_if]
  split
  · rw [Nat.toList_repr]
    exact numeric_toDigits _
  · simpa [Nat.toList_repr] using ⟨by decide, numeric_toDigits _⟩

theorem numeric_positional (d : Decimal) :
    d.positional.toList ≠ [] ∧ ∀ c ∈ d.positional.toList, isNumeric c = true := by
  have hdigits := numeric_toDigits d.digits
  have hpoint : isNumeric '.' = true := by decide
  have hzero : isNumeric '0' = true := by decide
  simp only [Decimal.positional, String.toList_ofList]
  split
  · refine ⟨by simp, fun c hc => ?_⟩
    simp only [List.mem_append, List.mem_replicate, List.mem_cons, List.not_mem_nil] at hc
    grind
  · split
    · refine ⟨by simp, fun c hc => ?_⟩
      rcases List.mem_append.1 hc with hc | hc
      · exact hdigits c (List.mem_of_mem_take hc)
      · rcases List.mem_cons.1 hc with rfl | hc
        · exact hpoint
        · exact hdigits c (List.mem_of_mem_drop hc)
    · refine ⟨by simp, fun c hc => ?_⟩
      simp only [List.mem_append, List.mem_replicate, List.mem_cons, List.not_mem_nil] at hc
      grind

theorem numeric_scientific (d : Decimal) :
    d.scientific.toList ≠ [] ∧ ∀ c ∈ d.scientific.toList, isNumeric c = true := by
  have hdigits := numeric_toDigits d.digits
  have hpoint : isNumeric '.' = true := by decide
  simp only [Decimal.scientific, String.toList_append, String.toList_ofList]
  refine ⟨by simp, fun c hc => ?_⟩
  rcases List.mem_append.1 hc with hc | hc
  · rcases List.mem_append.1 hc with hc | hc
    · split at hc
      · rename_i heq
        rw [heq] at hdigits
        grind
      · exact hdigits c hc
    · obtain rfl := List.mem_singleton.1 hc
      decide
  · exact numeric_toString d.order c hc

/-- Floats are written with the characters of numbers, those that are none included. -/
theorem numeric_floatText (x : Float) :
    (floatText x).toList ≠ [] ∧ ∀ c ∈ (floatText x).toList, isNumeric c = true := by
  have signed {text : String}
      (h : text.toList ≠ [] ∧ ∀ c ∈ text.toList, isNumeric c = true) :
      ((if x.toBits >>> 63 = 1 then "-" else "") ++ text).toList ≠ [] ∧
        ∀ c ∈ ((if x.toBits >>> 63 = 1 then "-" else "") ++ text).toList, isNumeric c = true := by
    rw [String.toList_append]
    refine ⟨List.append_ne_nil_of_right_ne_nil _ h.1, fun c hc => ?_⟩
    rcases List.mem_append.1 hc with hc | hc
    · split at hc
      · obtain rfl := List.mem_singleton.1 hc
        decide
      · cases hc
    · exact h.2 c hc
  unfold floatText Decimal.Layout.write
  split
  · exact numeric_of_all (by decide)
  · dsimp only
    split
    · exact signed (numeric_of_all (by decide))
    · split
      · exact signed (numeric_of_all (by decide))
      · refine signed ?_
        unfold Decimal.Layout.writeDecimal
        split
        · exact numeric_positional _
        · exact numeric_scientific _

/-- Every number is written as a name. -/
theorem isName_text (n : Number) : IsName n.text := by
  cases n with
  | int n => exact isName_of_numeric (numeric_of_read? (read?_int n))
  | float x =>
    unfold text
    dsimp only
    split
    · split <;> exact isName_of_numeric (numeric_of_all (by decide))
    · exact isName_of_numeric (numeric_floatText x)

end Number

/-- What the reader gives as a name is read as one. -/
theorem isName_of_name? {x : Lexeme} {name : String} (hx : x.Written) (hn : x.name? = some name) :
    IsName name := by
  cases x with
  | number n =>
    obtain rfl := Option.some.inj hn
    exact Number.isName_text n
  | string form text => cases hn
  | word w =>
    obtain rfl := Option.some.inj hn
    exact ⟨hx.1, hx.2.1⟩

end StackLang
