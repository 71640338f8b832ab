import StackLang.Proofs.Text.Uppercase
import StackLang.Proofs.Token.Bounded

/-!
# Reading back what was written

A text of lexemes with blanks behind each of them is read as those lexemes, if each of them alone is
read back behind its text.  What the reader gives is read back, but for floats, whose printed form
is not looked into here, and for a `(` that ends its source.

* `Lexeme.ReadsBack`, `Spells`: lexemes that are read back, and texts made of them.
* `lexemes_of_spells`: such a text is read as its lexemes.
* `written_of_nextToken?`, `readsBack_of_written`: what is read from a source is read back.
* `readsBack_int`: so is every integer.
-/

namespace StackLang

/-- The text is read as the lexeme when there is a blank behind it. -/
def Lexeme.ReadFrom (text : String) (x : Lexeme) : Prop :=
  ∀ (l : Location) (b : Char) (rest : List Char), isBlank b = true →
    ∃ l', Cursor.nextToken? ⟨text.toList ++ b :: rest, l⟩ = some (⟨l, x⟩, ⟨b :: rest, l'⟩)

/-- The lexeme is read from its own text. -/
def Lexeme.ReadsBack (x : Lexeme) : Prop :=
  x.ReadFrom x.text

/-- The characters are texts that are read as the lexemes, with blanks between them and at the
end. -/
inductive Spells : List Char → List Lexeme → Prop
  | nil : Spells [] []
  | blank {b : Char} {cs : List Char} {xs : List Lexeme} (hb : isBlank b = true)
    (h : Spells cs xs) : Spells (b :: cs) xs
  | lexeme {text : String} {x : Lexeme} {b : Char} {cs : List Char} {xs : List Lexeme}
    (hx : x.ReadFrom text) (hb : isBlank b = true) (h : Spells (b :: cs) xs) :
    Spells (text.toList ++ b :: cs) (x :: xs)

namespace Cursor

variable {b : Char} {cs rest : List Char} {l : Location}

/-! ## Gaps -/

theorem skipGap_congr {c d : Cursor} (h : c.dropWhile isBlank = d.dropWhile isBlank) :
    c.skipGap = d.skipGap := by
  have hc : c.rest.length < c.rest.length + d.rest.length + 1 := by omega
  have hd : d.rest.length < c.rest.length + d.rest.length + 1 := by omega
  rw [← skipGapWithin_eq hc, ← skipGapWithin_eq hd, skipGapWithin, skipGapWithin, h]

theorem skipGap_blank (hb : isBlank b = true) :
    skipGap ⟨b :: cs, l⟩ = skipGap ⟨cs, l.after b⟩ :=
  skipGap_congr (by simp [dropWhile, hb])

theorem nextToken?_blank (hb : isBlank b = true) :
    nextToken? ⟨b :: cs, l⟩ = nextToken? ⟨cs, l.after b⟩ := by
  unfold nextToken?
  rw [skipGap_blank hb]

theorem tokens_of_nextToken? {c : Cursor} :
    c.tokens = match c.nextToken? with
      | none => []
      | some (t, d) => (t, d) :: d.tokens := by
  rw [tokens]
  split <;> simp [*]

@[simp] theorem tokens_nil (l : Location) : tokens ⟨[], l⟩ = [] := by
  rw [tokens_of_nextToken?, nextToken?, ← skipGapWithin_eq (Nat.lt_succ_self _)]
  rfl

/-- Behind a gap there is no blank, and no comment begins there. -/
theorem head_skipGap {c : Cursor} {first : Char} (h : c.skipGap.rest = first :: rest) :
    isBlank first = false ∧ first ≠ '\\' ∧ (first = '(' → ∀ b ∈ rest.head?, isBlank b = false) := by
  have head {first : Char} {rest cs : List Char} (h : cs.dropWhile isBlank = first :: rest) :
      isBlank first = false := by
    have := List.head?_dropWhile_not isBlank cs
    rw [h] at this
    simpa using this
  fun_induction skipGap c with
  | case1 c d tail hd hlt ih => exact ih h
  | case2 c d b tail hd hb hlt ih => exact ih h
  | case3 c d b tail hd hb =>
    rw [hd] at h
    cases h
    exact ⟨head hd, by decide, fun _ b' hb' => by simpa [← Option.some.inj hb'] using hb⟩
  | case4 c d hline hcomment =>
    refine ⟨head h, ?_, ?_⟩
    · rintro rfl
      exact hline _ h
    · rintro rfl b hb
      cases rest with
      | nil => cases hb
      | cons b' rest => exact (hcomment b' rest h).elim

/-! ## Words -/

/-- The characters are read up to the next blank, and do not begin a comment. -/
structure Spelled (w : List Char) : Prop where
  ne_nil : w ≠ []
  blanks : ∀ c ∈ w, isBlank c = false
  head : w.head? ≠ some '\\'
  comment : w ≠ ['(']

instance (w : List Char) : Decidable (Spelled w) :=
  decidable_of_iff (w ≠ [] ∧ w.all (!isBlank ·) ∧ w.head? ≠ some '\\' ∧ w ≠ ['('])
    ⟨fun ⟨hn, hb, hh, hc⟩ => ⟨hn, by simpa using hb, hh, hc⟩,
      fun ⟨hn, hb, hh, hc⟩ => ⟨hn, by simpa using hb, hh, hc⟩⟩

theorem skipGap_of_spelled {w : List Char} (hw : Spelled w) :
    skipGap ⟨w ++ b :: rest, l⟩ = ⟨w ++ b :: rest, l⟩ := by
  obtain ⟨first, tail, rfl⟩ := List.exists_cons_of_ne_nil hw.ne_nil
  have hfirst := hw.blanks first List.mem_cons_self
  have hd : dropWhile isBlank ⟨first :: tail ++ b :: rest, l⟩ =
      ⟨first :: tail ++ b :: rest, l⟩ := by
    simp [dropWhile, hfirst]
  rw [← skipGapWithin_eq (Nat.lt_succ_self _), skipGapWithin, hd]
  dsimp only
  split
  · rename_i h
    cases h
    exact (hw.head rfl).elim
  · rename_i b' tail' h
    split
    · rename_i hb'
      cases tail with
      | nil =>
        cases h
        exact (hw.comment rfl).elim
      | cons c tail =>
        cases h
        rw [hw.blanks _ (by simp)] at hb'
        cases hb'
    · rfl
  · rfl

theorem nextToken?_of_spelled {w : String} (hw : Spelled w.toList) (hb : isBlank b = true)
    (rest : List Char) (l : Location) :
    ∃ l', nextToken? ⟨w.toList ++ b :: rest, l⟩ =
      some (⟨l, (lexeme w ⟨b :: rest, l'⟩).1⟩, (lexeme w ⟨b :: rest, l'⟩).2) := by
  unfold nextToken?
  rw [skipGap_of_spelled hw]
  obtain ⟨first, tail, h⟩ := List.exists_cons_of_ne_nil hw.ne_nil
  have htail : ∀ c ∈ tail, (!isBlank c) = true := fun c hc => by
    rw [hw.blanks c (by simp [h, hc])]
    rfl
  have hword : String.ofList (first :: (tail ++ b :: rest).takeWhile (!isBlank ·)) = w := by
    rw [List.takeWhile_append_of_pos htail]
    simp [hb, ← h]
  have hrest : (tail ++ b :: rest).dropWhile (!isBlank ·) = b :: rest := by
    rw [List.dropWhile_append_of_pos htail]
    simp [hb]
  refine ⟨(dropWhile (!isBlank ·) ⟨tail ++ b :: rest, l.after first⟩).location, ?_⟩
  have hbehind : dropWhile (!isBlank ·) ⟨tail ++ b :: rest, l.after first⟩ =
      ⟨b :: rest, (dropWhile (!isBlank ·) ⟨tail ++ b :: rest, l.after first⟩).location⟩ := by
    simp only [dropWhile, hrest]
  simp only [h, List.cons_append, hword]
  rw [← hbehind]

end Cursor

/-! ## Lexemes -/

/-- What the reader gives, if it is not the last of its source. -/
def Lexeme.Written : Lexeme → Prop
  | .number _ => True
  | .string form text => form.closing ∉ text.toList
  | .word w => Cursor.Spelled w.toList ∧ StringForm.ofWord? w = none ∧ Number.read? w = none

namespace Cursor

variable {c d : Cursor} {t : Token}

theorem lexeme_eq_word {v w : String} (h : (lexeme v c).1 = .word w) : v = w ∧
    (lexeme v c).2 = c ∧ StringForm.ofWord? w = none ∧ Number.read? w = none := by
  unfold lexeme at h ⊢
  split
  · rename_i hform
    rw [hform] at h
    cases h
  · rename_i hform
    rw [hform] at h
    dsimp only at h
    split
    · rename_i hnumber
      rw [hnumber] at h
      cases h
    · rename_i hnumber
      rw [hnumber] at h
      cases h
      exact ⟨rfl, rfl, hform, hnumber⟩

/-- A word that is read ends before a blank and begins no comment, but it may be a `(` that ends its
source. -/
theorem spelled_of_nextToken? {w : String} (h : c.nextToken? = some (t, d))
    (hw : t.lexeme = .word w) : (Spelled w.toList ∨ w = "(" ∧ d.rest = []) ∧
      StringForm.ofWord? w = none ∧ Number.read? w = none := by
  unfold nextToken? at h
  dsimp only at h
  split at h
  · cases h
  · rename_i first rest hrest
    obtain ⟨hblank, hline, hcomment⟩ := head_skipGap hrest
    obtain ⟨rfl, rfl⟩ := Prod.mk.inj (Option.some.inj h)
    obtain ⟨rfl, hbehind, hform, hnumber⟩ := lexeme_eq_word hw
    refine ⟨?_, hform, hnumber⟩
    rw [String.toList_ofList]
    by_cases hparen : first :: rest.takeWhile (!isBlank ·) = ['(']
    · refine .inr ⟨by rw [hparen], ?_⟩
      obtain ⟨rfl, hnil⟩ := List.cons.inj hparen
      -- Only the end of the source follows.
      rw [hbehind]
      show rest.dropWhile (!isBlank ·) = []
      cases rest with
      | nil => rfl
      | cons b rest =>
        have hb := hcomment rfl b rfl
        simp [hb] at hnil
    · refine .inl ⟨List.cons_ne_nil _ _, fun c hc => ?_, by simpa using hline, hparen⟩
      rcases List.mem_cons.1 hc with rfl | hc
      · exact hblank
      · simpa using List.all_eq_true.1 List.all_takeWhile c hc

theorem written_of_nextToken? (h : c.nextToken? = some (t, d)) (hd : d.rest ≠ []) :
    t.lexeme.Written := by
  cases hx : t.lexeme with
  | number n => trivial
  | word w =>
    obtain ⟨hspelled, hform, hnumber⟩ := spelled_of_nextToken? h hx
    exact ⟨hspelled.resolve_right fun h => hd h.2, hform, hnumber⟩
  | string form text =>
    unfold nextToken? at h
    dsimp only at h
    split at h
    · cases h
    · obtain ⟨rfl, rfl⟩ := Prod.mk.inj (Option.some.inj h)
      unfold lexeme at hx
      split at hx
      · obtain ⟨rfl, rfl⟩ := Lexeme.string.inj hx
        simp only [stringBody, Lexeme.Written, String.toList_ofList]
        intro hmem
        simpa using List.all_eq_true.1 List.all_takeWhile _ hmem
      · split at hx <;> cases hx

end Cursor

namespace Lexeme

theorem readsBack_of_lexeme {x : Lexeme} (hs : Cursor.Spelled x.text.toList)
    (hx : ∀ behind, Cursor.lexeme x.text behind = (x, behind)) : x.ReadsBack := by
  intro l b rest hb
  obtain ⟨l', h⟩ := Cursor.nextToken?_of_spelled hs hb rest l
  rw [hx] at h
  exact ⟨l', h⟩

theorem readsBack_word {w : String} (h : (word w).Written) : (word w).ReadsBack := by
  obtain ⟨hs, hform, hnumber⟩ := h
  refine readsBack_of_lexeme hs fun behind => ?_
  simp [Cursor.lexeme, text, hform, hnumber]

theorem readsBack_number {n : Number} (hs : Cursor.Spelled n.text.toList)
    (hform : StringForm.ofWord? n.text = none) (hn : Number.read? n.text = some n) :
    (number n).ReadsBack :=
  readsBack_of_lexeme hs fun behind => by simp [Cursor.lexeme, text, hform, hn]

theorem readsBack_string {form : StringForm} {text : String} (h : (string form text).Written) :
    (string form text).ReadsBack := by
  intro l b rest hb
  have hspelled : Cursor.Spelled form.opening.toList := by
    cases form <;> decide
  have htext : ∀ c ∈ text.toList, (c != form.closing) = true := by
    intro c hc
    rw [bne_iff_ne]
    rintro rfl
    exact h hc
  obtain ⟨l', hn⟩ := Cursor.nextToken?_of_spelled (b := ' ') hspelled rfl
    (text.toList ++ form.closing :: b :: rest) l
  have hbody : ∃ l'', Cursor.stringBody form
      ⟨' ' :: (text.toList ++ form.closing :: b :: rest), l'⟩ = (text, ⟨b :: rest, l''⟩) := by
    simp [Cursor.stringBody, Cursor.dropSpace, Cursor.dropOne, Cursor.next?, Cursor.dropWhile,
      List.takeWhile_append_of_pos htext, List.dropWhile_append_of_pos htext]
  obtain ⟨l'', hbody⟩ := hbody
  refine ⟨l'', ?_⟩
  rw [Cursor.lexeme, StringForm.ofWord?_opening] at hn
  dsimp only at hn
  rw [hbody] at hn
  simpa [Lexeme.text] using hn

end Lexeme

/-! ## Integers -/

namespace Number

variable {cs : List Char} {c : Char}

theorem digit?_of_isDigit (h : c.isDigit = true) :
    Decimal.digit? 10 c = some (c.toNat - '0'.toNat) := by
  have hc := Char.isDigit_iff_toNat.1 h
  have hlow : '0' ≤ c := hc.1
  have hhigh : c ≤ '9' := hc.2
  have hlt : c.toNat - '0'.toNat < 10 := by
    have := hc.2
    simp at this ⊢
    omega
  simp only [Decimal.digit?, hlow, hhigh, and_self, if_true]
  simpa [Option.filter] using hlt

theorem readNat_of_digits (h : ∀ c ∈ cs, c.isDigit = true) :
    Decimal.readNat 10 cs = some (Nat.ofDigitChars 10 cs 0) := by
  have main (n : Nat) : cs.foldlM (fun n c => (Decimal.digit? 10 c).map (10 * n + ·)) n =
      some (Nat.ofDigitChars 10 cs n) := by
    induction cs generalizing n with
    | nil => rfl
    | cons c cs ih =>
      rw [List.foldlM_cons, digit?_of_isDigit (h c List.mem_cons_self), Nat.ofDigitChars_cons]
      exact ih (fun d hd => h d (List.mem_cons_of_mem _ hd)) _
  exact main 0

theorem splitSign_of_digits (h : ∀ c ∈ cs, c.isDigit = true) : splitSign cs = (false, cs) := by
  unfold splitSign
  split
  · exact absurd (h '-' List.mem_cons_self) (by decide)
  · exact absurd (h '+' List.mem_cons_self) (by decide)
  · rfl

/-- Digits, with a sign or without, are read as a decimal integer. -/
theorem readChars_of_decimal {n : Int64} (h : ∀ c ∈ cs, c.isDigit = true ∨ c = '-')
    (hn : readInteger 10 cs = some n) : readChars cs = some (.int n) := by
  have not_mem {c : Char} (hd : c.isDigit = false) (hc : c ≠ '-') (hm : c ∈ cs) : False :=
    (h c hm).elim (fun hc => by rw [hd] at hc; cases hc) hc
  unfold readChars
  split
  · exact (not_mem (c := '$') (by decide) (by decide) (by simp)).elim
  · exact (not_mem (c := 'x') (by decide) (by decide) (by simp)).elim
  · exact (not_mem (c := 'X') (by decide) (by decide) (by simp)).elim
  · rw [hn]
    rfl

theorem readInteger_toList (n : Int64) :
    readInteger 10 (toString n.toInt).toList = some n := by
  have digits (k : Nat) : ∀ c ∈ Nat.toDigits 10 k, c.isDigit = true := fun c hc =>
    Nat.isDigit_of_mem_toDigits (by decide) (by decide) hc
  have bounds := And.intro n.minValue_le_toInt n.toInt_le
  rw [Int.toString_eq_repr, Int.repr_eq_if]
  split
  · rename_i hn
    simp only [Nat.toList_repr, readInteger, splitSign_of_digits (digits _), Nat.toDigits_ne_nil,
      if_false, readNat_of_digits (digits _), Nat.ofDigitChars_ten_toDigits, Option.bind_some,
      Bool.false_eq_true]
    rw [show ((n.toInt.toNat : Nat) : Int) = n.toInt by omega, if_pos bounds, Int64.ofInt_toInt]
  · rename_i hn
    have hs : splitSign ("-" ++ (-n.toInt).toNat.repr).toList =
        (true, Nat.toDigits 10 (-n.toInt).toNat) := by
      simp [splitSign, Nat.toList_repr]
    simp only [readInteger, hs, Nat.toDigits_ne_nil, if_false, if_true,
      readNat_of_digits (digits _), Nat.ofDigitChars_ten_toDigits, Option.bind_some]
    rw [show -(((-n.toInt).toNat : Nat) : Int) = n.toInt by omega, if_pos bounds,
      Int64.ofInt_toInt]

theorem decimal_of_mem_text {n : Int64} (h : c ∈ (toString n.toInt).toList) :
    c.isDigit = true ∨ c = '-' := by
  have digits {k : Nat} (hc : c ∈ Nat.toDigits 10 k) : c.isDigit = true :=
    Nat.isDigit_of_mem_toDigits (by decide) (by decide) hc
  rw [Int.toString_eq_repr, Int.repr_eq_if] at h
  split at h
  · rw [Nat.toList_repr] at h
    exact .inl (digits h)
  · rw [String.toList_append, Nat.toList_repr] at h
    rcases List.mem_append.1 h with h | h
    · exact .inr (by simpa using h)
    · exact .inl (digits h)

theorem read?_int (n : Int64) : read? (toString n.toInt) = some (.int n) :=
  readChars_of_decimal (fun _ => decimal_of_mem_text) (readInteger_toList n)

end Number

/-- A word in upper case without quotes and parentheses opens no string literal. -/
theorem StringForm.ofWord?_eq_none {w : String}
    (h : ∀ c ∈ w.toList, Text.upperChar c = [c]) (hquote : '"' ∉ w.toList)
    (hparen : '(' ∉ w.toList) : ofWord? w = none := by
  unfold ofWord?
  rw [List.find?_eq_none, Text.uppercase_eq_self h]
  intro form _ ho
  obtain rfl := eq_of_beq ho
  cases form with
  | print | push => exact hquote (by decide)
  | display => exact hparen (by decide)

/-- Every integer is read back. -/
theorem Lexeme.readsBack_int (n : Int64) : (Lexeme.number (.int n)).ReadsBack := by
  have decimal {c : Char} (hc : c ∈ (toString n.toInt).toList) : c.isDigit = true ∨ c = '-' :=
    Number.decimal_of_mem_text hc
  have other {c : Char} (hd : c.isDigit = false) (hc : c ≠ '-') :
      c ∉ (toString n.toInt).toList := fun hm =>
    (decimal hm).elim (fun h => by rw [hd] at h; cases h) hc
  refine readsBack_number ⟨?_, fun c hc => ?_, fun h => ?_, fun h => ?_⟩ ?_ (Number.read?_int n)
  · intro hnil
    have hr := Number.readInteger_toList n
    rw [show (toString n.toInt).toList = [] from hnil] at hr
    cases hr
  · rcases decimal hc with hd | rfl
    · have hn := (Char.isDigit_iff_toNat.1 hd).1
      unfold isBlank
      simp only [Bool.or_eq_false_iff, beq_eq_false_iff_ne]
      refine ⟨⟨⟨?_, ?_⟩, ?_⟩, ?_⟩ <;>
      · rintro rfl
        revert hn
        decide
    · rfl
  · exact other (c := '\\') (by decide) (by decide) (List.mem_of_mem_head? h)
  · refine other (c := '(') (by decide) (by decide) ?_
    rw [show (toString n.toInt).toList = ['('] from h]
    simp
  · refine StringForm.ofWord?_eq_none (fun c hc => ?_) ?_ ?_
    · rcases decimal hc with hd | rfl
      · have hn := Char.isDigit_iff_toNat.1 hd
        simp only [Char.reduceToNat] at hn
        rw [Text.upperChar_of_ascii (by omega), Text.toUpper_eq_self (by omega)]
      · decide
    · exact other (c := '"') (by decide) (by decide)
    · exact other (c := '(') (by decide) (by decide)

theorem Lexeme.readsBack_of_written {x : Lexeme} (h : x.Written)
    (hx : ∀ f, x ≠ .number (.float f)) : x.ReadsBack := by
  cases x with
  | number n =>
    cases n with
    | int n => exact readsBack_int n
    | float f => exact (hx f rfl).elim
  | string form text => exact readsBack_string h
  | word w => exact readsBack_word h

/-! ## Sources -/

/-- A text that spells lexemes is read as those. -/
theorem lexemes_of_spells {cs : List Char} {xs : List Lexeme} (h : Spells cs xs) (l : Location) :
    (Cursor.tokens ⟨cs, l⟩).map (·.1.lexeme) = xs := by
  induction h generalizing l with
  | nil => simp
  | blank hb h ih =>
    rw [Cursor.tokens_of_nextToken?, Cursor.nextToken?_blank hb, ← Cursor.tokens_of_nextToken?]
    exact ih _
  | lexeme hx hb h ih =>
    obtain ⟨l', hn⟩ := hx l _ _ hb
    rw [Cursor.tokens_of_nextToken?, hn]
    simp [ih]

theorem lexemes_ofSource {source : String} {xs : List Lexeme} (h : Spells source.toList xs)
    (path : String) : (Token.ofSource path source).map (·.lexeme) = xs := by
  unfold Token.ofSource
  rw [List.map_map]
  exact lexemes_of_spells h _

/-- All tokens but the last are written as the reader gives them. -/
def Token.Readable : List Token → Prop
  | [] => True
  | t :: rest => (rest ≠ [] → t.lexeme.Written) ∧ Readable rest

theorem Cursor.readable_tokens (c : Cursor) : Token.Readable (c.tokens.map (·.1)) := by
  fun_induction Cursor.tokens c with
  | case1 c h => trivial
  | case2 c t d h hlt ih =>
    refine ⟨fun hne => written_of_nextToken? h fun hd => hne ?_, ih⟩
    obtain ⟨rest, l⟩ := d
    cases hd
    simp

theorem Token.readable_ofSource (path source : String) : Readable (ofSource path source) :=
  Cursor.readable_tokens _

end StackLang
