import StackLang.Text.Uppercase

/-!
# Upper case is final

A text in upper case is its own upper-case form.  No form in the tables belongs to a character that
has another form, which is checked range against range.

* `CaseRange.misses`: no form of the one range lies in the other range.
* `uppercase_uppercase`: the mapping is idempotent.
-/

namespace StackLang.Text

namespace CaseRange

/-- The form of a code point of the range. -/
def image (r : CaseRange) (n : Nat) : Nat :=
  (n + r.shift).toNat

/-- No form of the range lies in the other one: it is before it or behind it, or they alternate. -/
def misses (r b : CaseRange) : Bool :=
  Nat.blt (r.image r.last) b.first || Nat.blt b.last (r.image r.first) ||
    (b.step == 2 && (r.step == 2 || r.first == r.last) && Nat.blt 0 (r.image r.first) &&
      (r.image r.first + b.first) % 2 == 1)

theorem holds_image_eq_false {r b : CaseRange} (h : r.misses b = true) {n : Nat}
    (hn : r.holds n = true) : b.holds (r.image n) = false := by
  rw [Bool.eq_false_iff]
  intro hb
  simp only [holds, misses, Bool.and_eq_true, Bool.or_eq_true, decide_eq_true_eq, beq_iff_eq,
    Nat.blt_eq] at h hn hb
  unfold image at h hb
  obtain ⟨⟨hfirst, hlast⟩, hstep⟩ := hn
  obtain ⟨⟨hfirst', hlast'⟩, hstep'⟩ := hb
  rcases h with (h | h) | ⟨⟨⟨htwo, hr⟩, hpos⟩, hodd⟩
  · omega
  · omega
  · rw [htwo] at hstep'
    rcases hr with hr | hr
    · rw [hr] at hstep
      omega
    · omega

end CaseRange

/-! ## Settled characters -/

/-- The small letters of ASCII. -/
def smallLetters : CaseRange :=
  ⟨97, 122, 1, 0⟩

/-- The characters beyond ASCII that have another form. -/
def changing : List CaseRange :=
  caseExpansions.map (fun e => ⟨e.1, e.1, 1, 0⟩) ++ caseRanges

/-- The code point has no other form. -/
structure Settled (n : Nat) : Prop where
  ascii : smallLetters.holds n = false
  beyond : ∀ b ∈ changing, b.holds n = false

/-- Only small letters have another form in ASCII. -/
theorem toUpper_eq_self {c : Char} (h : ¬ (97 ≤ c.toNat ∧ c.toNat ≤ 122)) : c.toUpper = c :=
  dif_neg fun ⟨hlow, hhigh⟩ => h ⟨UInt32.le_iff_toNat_le.1 hlow, UInt32.le_iff_toNat_le.1 hhigh⟩

theorem upperChar_of_settled {c : Char} (h : Settled c.toNat) : upperChar c = [c] := by
  unfold upperChar
  split
  · rw [toUpper_eq_self]
    rintro ⟨hlow, hhigh⟩
    have hletter := h.ascii
    simp [CaseRange.holds, smallLetters, hlow, hhigh, Nat.mod_one] at hletter
  · have hexpansion : caseExpansions.find? (·.1 == c.toNat) = none := by
      rw [List.find?_eq_none]
      intro e he hc
      have hb := h.beyond ⟨e.1, e.1, 1, 0⟩ (List.mem_append_left _ (List.mem_map_of_mem he))
      simp [CaseRange.holds, ← eq_of_beq hc] at hb
    have hrange : caseRanges.find? (·.holds c.toNat) = none := by
      rw [List.find?_eq_none]
      intro r hr
      rw [h.beyond r (List.mem_append_right _ hr)]
      exact Bool.false_ne_true
    rw [hexpansion, hrange]

/-- Below U+0080 a character without another form in ASCII has none. -/
theorem settled_of_ascii {n : Nat} (hn : n < 128) (h : smallLetters.holds n = false) :
    Settled n := by
  refine ⟨h, fun b hb => ?_⟩
  have hfirst : ∀ b ∈ changing, 128 ≤ b.first := by decide +kernel
  have hbelow : ¬ b.first ≤ n := by
    have := hfirst b hb
    omega
  simp [CaseRange.holds, hbelow]

/-- A code point that is none of a character stands for the first one. -/
theorem settled_ofNat {n : Nat} (h : Settled n) : Settled (Char.ofNat n).toNat := by
  by_cases hv : n.isValidChar
  · rw [show Char.ofNat n = Char.ofNatAux n hv from dif_pos hv]
    exact h
  · rw [show Char.ofNat n = '\x00' from dif_neg hv]
    exact settled_of_ascii (n := 0) (by decide) (by decide)

theorem settled_of_misses {r : CaseRange} (h : (smallLetters :: changing).all r.misses = true)
    {n : Nat} (hn : r.holds n = true) : Settled (r.image n) := by
  have hsettled (b : CaseRange) (hb : b ∈ smallLetters :: changing) : b.holds (r.image n) = false :=
    CaseRange.holds_image_eq_false (List.all_eq_true.1 h b hb) hn
  exact ⟨hsettled _ List.mem_cons_self, fun b hb => hsettled b (List.mem_cons_of_mem _ hb)⟩

/-- The form of a character in a range is settled. -/
theorem settled_image {r : CaseRange} (hr : r ∈ caseRanges) {n : Nat} (hn : r.holds n = true) :
    Settled (r.image n) := by
  have hmisses : (caseRanges.all fun r => (smallLetters :: changing).all r.misses) = true := by
    decide +kernel
  exact settled_of_misses (List.all_eq_true.1 hmisses r hr) hn

theorem settled_of_mem_expansion {e : Nat × List Nat} (he : e ∈ caseExpansions) {n : Nat}
    (hn : n ∈ e.2) : Settled n := by
  have hmisses : (caseExpansions.all fun e => e.2.all fun n =>
      (smallLetters :: changing).all (CaseRange.misses ⟨n, n, 1, 0⟩)) = true := by
    decide +kernel
  exact settled_of_misses (List.all_eq_true.1 (List.all_eq_true.1 hmisses e he) n hn)
    (by simp [CaseRange.holds])

/-- The forms of characters are settled. -/
theorem settled_of_mem_upperChar {c d : Char} (h : d ∈ upperChar c) : Settled d.toNat := by
  unfold upperChar at h
  split at h
  · have hupper : ∀ n < 128, (Char.ofNat n).toUpper.toNat < 128 ∧
        smallLetters.holds (Char.ofNat n).toUpper.toNat = false := by decide
    obtain ⟨hlt, hletter⟩ := hupper c.toNat ‹_›
    rw [Char.ofNat_toNat] at hlt hletter
    rw [List.mem_singleton.1 h]
    exact settled_of_ascii hlt hletter
  · rename_i hascii
    split at h
    · rename_i hfind
      obtain ⟨n, hn, rfl⟩ := List.mem_map.1 h
      exact settled_ofNat (settled_of_mem_expansion (List.mem_of_find?_eq_some hfind) hn)
    · rename_i hexpansion
      split at h
      · rename_i r hfind
        rw [List.mem_singleton.1 h]
        have hc := List.find?_some hfind
        exact settled_ofNat (settled_image (List.mem_of_find?_eq_some hfind) hc)
      · rename_i hrange
        rw [List.mem_singleton.1 h]
        refine ⟨?_, fun b hb => ?_⟩
        · have hlast : ¬ c.toNat ≤ 122 := by omega
          simp [CaseRange.holds, smallLetters, hlast]
        · rcases List.mem_append.1 hb with hb | hb
          · obtain ⟨e, he, rfl⟩ := List.mem_map.1 hb
            have hne := List.find?_eq_none.1 hexpansion e he
            rw [Bool.eq_false_iff]
            intro hholds
            simp only [CaseRange.holds, Bool.and_eq_true, decide_eq_true_eq] at hholds
            exact hne (beq_iff_eq.2 (Nat.le_antisymm hholds.1.1 hholds.1.2))
          · simpa using List.find?_eq_none.1 hrange b hb

/-! ## Texts -/

theorem uppercase_eq_self {s : String} (h : ∀ c ∈ s.toList, upperChar c = [c]) :
    uppercase s = s := by
  apply String.toList_inj.1
  rw [toList_uppercase]
  generalize s.toList = cs at h
  induction cs with
  | nil => rfl
  | cons c cs ih =>
    rw [List.flatMap_cons, h c List.mem_cons_self, ih fun d hd => h d (List.mem_cons_of_mem _ hd)]
    rfl

/-- Upper case is final. -/
theorem uppercase_uppercase (s : String) : uppercase (uppercase s) = uppercase s := by
  refine uppercase_eq_self fun d hd => ?_
  rw [toList_uppercase] at hd
  obtain ⟨c, -, hd⟩ := List.mem_flatMap.1 hd
  exact upperChar_of_settled (settled_of_mem_upperChar hd)

end StackLang.Text
