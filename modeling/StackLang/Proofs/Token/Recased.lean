import Mathlib.Data.List.Forall2
import StackLang.Proofs.Blur.Parts
import StackLang.Proofs.Text.Uppercase
import StackLang.Proofs.Token.Pieces

/-!
# Sources in another letter case

The words of a source, its numbers and the words that open its literals may be written in any letter
case.  The tokens stay where they are, and only the words among them differ, in letter case.

* `Number.read?_recased`: a number does not depend on the case of its letters.
* `Piece.Recased`, `Token.Recased`: pieces and sources that differ in letter case.
* `Token.map_token_ofSource`: their tokens are alike.
-/

namespace StackLang

/-! ## Letters -/

/-- What holds of the small letters of ASCII holds of all characters that change in upper case. -/
theorem Text.apply_toUpper {α : Type} (f : Char → α)
    (h : ∀ k < 26, f (Char.ofNat (97 + k)).toUpper = f (Char.ofNat (97 + k))) (c : Char) :
    f c.toUpper = f c := by
  by_cases hc : 97 ≤ c.toNat ∧ c.toNat ≤ 122
  · have hk := h (c.toNat - 97) (by omega)
    rwa [Nat.add_sub_cancel' hc.1, Char.ofNat_toNat] at hk
  · rw [Text.toUpper_eq_self hc]

/-- Letters of ASCII in either case are alike, and no places. -/
def Blur.letters : Blur where
  place := id
  char := Char.toUpper
  upper := Text.apply_toUpper Text.upperChar (by decide +kernel)

theorem isBlank_toUpper (c : Char) : isBlank c.toUpper = isBlank c :=
  Text.apply_toUpper isBlank (by decide) c

theorem isDigit_toUpper (c : Char) : c.toUpper.isDigit = c.isDigit :=
  Text.apply_toUpper Char.isDigit (by decide) c

/-- Characters that are no letters are only like themselves. -/
theorem eq_of_toUpper {c d : Char} (h : c.toUpper = d) (hd : d.isAlpha = false) : c = d := by
  by_cases hc : 97 ≤ c.toNat ∧ c.toNat ≤ 122
  · have hk : ∀ k < 26, (Char.ofNat (97 + k)).toUpper.isAlpha = true := by decide
    have hupper := hk (c.toNat - 97) (by omega)
    rw [Nat.add_sub_cancel' hc.1, Char.ofNat_toNat, h, hd] at hupper
    cases hupper
  · rwa [Text.toUpper_eq_self hc] at h

theorem toUpper_of_not_isAlpha {c : Char} (h : c.isAlpha = false) : c.toUpper = c := by
  refine Text.toUpper_eq_self fun hc => ?_
  have hk : ∀ k < 26, (Char.ofNat (97 + k)).isAlpha = true := by decide
  have halpha := hk (c.toNat - 97) (by omega)
  rw [Nat.add_sub_cancel' hc.1, Char.ofNat_toNat, h] at halpha
  cases halpha

theorem toUpper_toUpper (c : Char) : c.toUpper.toUpper = c.toUpper :=
  Text.apply_toUpper Char.toUpper (by decide) c

theorem eq_or_eq_of_toUpper_x {c : Char} (h : c.toUpper = 'X') : c = 'x' ∨ c = 'X' := by
  have hx := Text.apply_toUpper (fun c => decide (c = 'x' ∨ c = 'X')) (by decide) c
  rw [h] at hx
  exact of_decide_eq_true hx.symm

namespace Number

/-! ## Numbers -/

theorem digit?_eq_filter (base : Nat) (c : Char) :
    Decimal.digit? base c = (Decimal.digit? 36 c).filter (· < base) := by
  have hvalue {v : Nat} (hv : v < 36) :
      (some v).filter (· < base) = ((some v).filter (· < 36)).filter (· < base) := by
    simp [Option.filter, hv]
  unfold Decimal.digit?
  dsimp only
  split
  · rename_i h
    have hlast : c.toNat ≤ 57 := UInt32.le_iff_toNat_le.1 h.2
    exact hvalue (show c.toNat - 48 < 36 by omega)
  · split
    · rename_i h
      have hlast : c.toNat ≤ 122 := UInt32.le_iff_toNat_le.1 h.2
      exact hvalue (show c.toNat - 97 + 10 < 36 by omega)
    · split
      · rename_i h
        have hlast : c.toNat ≤ 90 := UInt32.le_iff_toNat_le.1 h.2
        exact hvalue (show c.toNat - 65 + 10 < 36 by omega)
      · rfl

/-- The value of a digit does not depend on its case. -/
theorem digit?_toUpper (base : Nat) (c : Char) :
    Decimal.digit? base c.toUpper = Decimal.digit? base c := by
  rw [digit?_eq_filter, Text.apply_toUpper (Decimal.digit? 36) (by decide),
    ← digit?_eq_filter]

theorem readNat_recased (base : Nat) (cs : List Char) :
    Decimal.readNat base (cs.map Char.toUpper) = Decimal.readNat base cs := by
  simp [Decimal.readNat, List.foldlM_map, digit?_toUpper]

theorem splitSign_recased (cs : List Char) :
    splitSign (cs.map Char.toUpper) = ((splitSign cs).1, (splitSign cs).2.map Char.toUpper) := by
  cases cs with
  | nil => rfl
  | cons c cs =>
    by_cases hminus : c = '-'
    · rw [hminus]
      rfl
    · by_cases hplus : c = '+'
      · rw [hplus]
        rfl
      · have hminus' : c.toUpper ≠ '-' := fun h => hminus (eq_of_toUpper h rfl)
        have hplus' : c.toUpper ≠ '+' := fun h => hplus (eq_of_toUpper h rfl)
        simp [splitSign, hminus, hplus, hminus', hplus']

theorem readInteger_recased (base : Nat) (cs : List Char) :
    readInteger base (cs.map Char.toUpper) = readInteger base cs := by
  unfold readInteger
  rw [splitSign_recased]
  simp only [readNat_recased, List.map_eq_nil_iff]

/-- Digits have no case. -/
theorem map_toUpper_of_digits {cs : List Char} (h : cs.all Char.isDigit = true) :
    cs.map Char.toUpper = cs := by
  refine (List.map_congr_left fun c hc => ?_).trans (List.map_id cs)
  have hdigit := Char.isDigit_iff_toNat.1 (List.all_eq_true.1 h c hc)
  simp only [Char.reduceToNat] at hdigit
  exact Text.toUpper_eq_self (by omega)

theorem takeWhile_isDigit_recased (cs : List Char) :
    (cs.map Char.toUpper).takeWhile Char.isDigit = cs.takeWhile Char.isDigit := by
  have hp : Char.isDigit ∘ Char.toUpper = Char.isDigit := funext isDigit_toUpper
  rw [List.takeWhile_map, hp, map_toUpper_of_digits List.all_takeWhile]

theorem dropWhile_isDigit_recased (cs : List Char) :
    (cs.map Char.toUpper).dropWhile Char.isDigit =
      (cs.dropWhile Char.isDigit).map Char.toUpper := by
  have hp : Char.isDigit ∘ Char.toUpper = Char.isDigit := funext isDigit_toUpper
  rw [List.dropWhile_map, hp]

theorem readExponent_recased (cs : List Char) :
    readExponent (cs.map Char.toUpper) = readExponent cs := by
  cases cs with
  | nil => rfl
  | cons c cs =>
    have hmark : (c.toUpper = 'e' ∨ c.toUpper = 'E') ↔ (c = 'e' ∨ c = 'E') :=
      decide_eq_decide.1
        (Text.apply_toUpper (fun c => decide (c = 'e' ∨ c = 'E')) (by decide) c)
    have hall (digits : List Char) :
        (digits.map Char.toUpper).all Char.isDigit = digits.all Char.isDigit := by
      rw [List.all_map, show Char.isDigit ∘ Char.toUpper = Char.isDigit from funext isDigit_toUpper]
    rw [List.map_cons, readExponent, readExponent, splitSign_recased]
    simp only [hmark, hall, ne_eq, List.map_eq_nil_iff]
    split
    · rename_i h
      rw [map_toUpper_of_digits h.2.2]
    · rfl

theorem readFloat_recased (cs : List Char) :
    readFloat (cs.map Char.toUpper) = readFloat cs := by
  unfold readFloat
  rw [splitSign_recased]
  dsimp only
  rw [takeWhile_isDigit_recased, dropWhile_isDigit_recased]
  cases (splitSign cs).2.dropWhile Char.isDigit with
  | nil => rfl
  | cons c rest =>
    by_cases hc : c = '.'
    · rw [hc, List.map_cons, show Char.toUpper '.' = '.' from rfl]
      simp only [takeWhile_isDigit_recased, dropWhile_isDigit_recased, readExponent_recased]
    · have hc' : c.toUpper ≠ '.' := fun h => hc (eq_of_toUpper h rfl)
      have hexponent := readExponent_recased (c :: rest)
      rw [List.map_cons] at hexponent ⊢
      simp [hc, hc', hexponent]

/-- A number does not depend on the case of its letters. -/
theorem readChars_recased (cs : List Char) : readChars (cs.map Char.toUpper) = readChars cs := by
  have hdecimal : ((readInteger 10 (cs.map Char.toUpper)).map int).or
        ((readFloat (cs.map Char.toUpper)).map float) =
      ((readInteger 10 cs).map int).or ((readFloat cs).map float) := by
    rw [readInteger_recased, readFloat_recased]
  have hhexadecimal (digits : List Char) :
      (readInteger 16 (digits.map Char.toUpper)).map int = (readInteger 16 digits).map int := by
    rw [readInteger_recased]
  fun_cases readChars cs with
  | case1 cs => exact hhexadecimal cs
  | case2 c cs => exact hhexadecimal (c :: cs)
  | case3 c cs => exact hhexadecimal (c :: cs)
  | case4 cs hdollar hsmall hcapital =>
    rw [← hdecimal]
    unfold readChars
    split
    · rename_i digits h
      obtain ⟨c, rest, rfl, hc, -⟩ := List.map_eq_cons_iff.1 h
      exact (hdollar rest (by rw [eq_of_toUpper hc rfl])).elim
    · rename_i d digits h
      obtain ⟨-, rest, rfl, -, h⟩ := List.map_eq_cons_iff.1 h
      obtain ⟨x, rest, rfl, hx, -⟩ := List.map_eq_cons_iff.1 h
      have hupper := toUpper_toUpper x
      rw [hx] at hupper
      cases hupper
    · rename_i d digits h
      obtain ⟨zero, rest, rfl, hzero, h⟩ := List.map_eq_cons_iff.1 h
      obtain ⟨x, rest, rfl, hx, h⟩ := List.map_eq_cons_iff.1 h
      obtain ⟨c, rest, rfl, -, -⟩ := List.map_eq_cons_iff.1 h
      obtain rfl := eq_of_toUpper hzero rfl
      rcases eq_or_eq_of_toUpper_x hx with rfl | rfl
      · exact (hsmall c rest rfl).elim
      · exact (hcapital c rest rfl).elim
    · rfl

theorem read?_recased {w w' : List Char} (h : w'.map Char.toUpper = w.map Char.toUpper) :
    read? (String.ofList w') = read? (String.ofList w) := by
  rw [read?, read?, String.toList_ofList, String.toList_ofList, ← readChars_recased, h,
    readChars_recased]

end Number

/-! ## Pieces -/

/-- The texts differ in the case of ASCII letters only. -/
def SameLetters (cs cs' : List Char) : Prop :=
  cs'.map Char.toUpper = cs.map Char.toUpper

namespace SameLetters

variable {cs cs' ds ds' : List Char}

theorem refl (cs : List Char) : SameLetters cs cs := rfl

theorem append (h : SameLetters cs cs') (h' : SameLetters ds ds') :
    SameLetters (cs ++ ds) (cs' ++ ds') := by
  rw [SameLetters, List.map_append, List.map_append, h, h']

/-- The same characters at the start, but for their case. -/
theorem head? (h : SameLetters cs cs') :
    ∀ c' ∈ cs'.head?, ∃ c ∈ cs.head?, c'.toUpper = c.toUpper := by
  intro c' hc'
  have hh : cs'.head?.map Char.toUpper = cs.head?.map Char.toUpper := by
    rw [← List.head?_map, h, List.head?_map]
  rw [hc'] at hh
  obtain ⟨c, hc, hu⟩ := Option.map_eq_some_iff.1 hh.symm
  exact ⟨c, hc, hu.symm⟩

/-- Blanks are the same, and stand where they stood. -/
theorem blank_head? (h : SameLetters cs cs') {b : Char} (hb : b.isAlpha = false)
    (hne : cs.head? ≠ some b) : cs'.head? ≠ some b := by
  intro hc'
  obtain ⟨c, hc, hu⟩ := h.head? b hc'
  rw [toUpper_of_not_isAlpha hb] at hu
  exact hne (hc.trans (congrArg some (eq_of_toUpper hu.symm hb)))

theorem eq_nil (h : SameLetters cs cs') (hn : cs = []) : cs' = [] := by
  rw [SameLetters, hn] at h
  exact List.map_eq_nil_iff.1 h

end SameLetters

theorem Location.advance_recased {cs cs' : List Char} (h : SameLetters cs cs') (l : Location) :
    l.advance cs' = l.advance cs := by
  have hafter (l : Location) (c : Char) : l.after c.toUpper = l.after c := by
    have hc := Text.apply_toUpper (fun c => decide (c = '\n')) (by decide) c
    simp only [decide_eq_decide] at hc
    simp only [after, hc]
  have hupper (cs : List Char) (l : Location) : l.advance (cs.map Char.toUpper) = l.advance cs := by
    rw [advance, advance, List.foldl_map]
    exact congrArg (List.foldl · l cs) (funext fun l => funext fun c => hafter l c)
  rw [← hupper cs', h, hupper cs]

theorem StringForm.ofWord?_recased {w w' : List Char} (h : SameLetters w w') :
    ofWord? (String.ofList w') = ofWord? (String.ofList w) := by
  have hw : Blur.letters.text (String.ofList w') = Blur.letters.text (String.ofList w) := by
    apply String.toList_inj.1
    rw [Blur.text, Blur.text, String.toList_map, String.toList_map, String.toList_ofList,
      String.toList_ofList]
    exact h
  rw [ofWord?, ofWord?, Blur.letters.uppercase_eq hw]

theorem Cursor.Spelled.recased {w w' : List Char} (hw : Spelled w) (h : SameLetters w w') :
    Spelled w' where
  ne_nil hn := hw.ne_nil (by rw [SameLetters, hn] at h; exact List.map_eq_nil_iff.1 h.symm)
  blanks c' hc' := by
    have hm : c'.toUpper ∈ w.map Char.toUpper := by
      rw [← h]
      exact List.mem_map_of_mem hc'
    obtain ⟨c, hc, hu⟩ := List.mem_map.1 hm
    rw [← isBlank_toUpper, ← hu, isBlank_toUpper, hw.blanks c hc]
  head := h.blank_head? rfl hw.head
  comment hn := by
    rw [SameLetters, hn] at h
    obtain ⟨c, rest, rfl, hc, hrest⟩ := List.map_eq_cons_iff.1 h.symm
    rw [List.map_eq_nil_iff.1 hrest, eq_of_toUpper hc rfl] at hw
    exact hw.comment rfl

namespace Piece

/-- The piece with its word in another letter case, if it has one. -/
inductive Recased : Piece → Piece → Prop where
  | same (p : Piece) : Recased p p
  | word {t t' : List Char} (h : SameLetters t t') : Recased (.word t) (.word t')
  | literal {opening opening' : List Char} (h : SameLetters opening opening') (form : StringForm)
    (space : Bool) (t : List Char) (closed : Bool) :
    Recased (.literal form opening space t closed) (.literal form opening' space t closed)

variable {p q : Piece} {ps qs : List Piece} {rest rest' : List Char}

theorem Recased.sameLetters (h : p.Recased q) : SameLetters p.text q.text := by
  cases h with
  | same => exact .refl _
  | word h => exact h
  | literal h => exact h.append (.refl _)

theorem sameLetters_source (h : List.Forall₂ Recased ps qs) :
    SameLetters (source ps) (source qs) := by
  induction h with
  | nil => exact .refl _
  | cons hp _ ih => exact hp.sameLetters.append ih

theorem EndsWord.recased (h : EndsWord rest) (hr : SameLetters rest rest') : EndsWord rest' := by
  intro c' hc'
  obtain ⟨c, hc, hu⟩ := hr.head? c' hc'
  rw [← isBlank_toUpper, hu, isBlank_toUpper]
  exact h c hc

theorem Fits.recased_word {t t' : List Char} (hp : Fits rest (.word t)) (h : SameLetters t t')
    (hr : SameLetters rest rest') : Fits rest' (.word t') := by
  obtain ⟨ht, hform, hends⟩ := hp
  refine ⟨?_, StringForm.ofWord?_recased h ▸ hform, hends.recased hr⟩
  rcases ht with ht | ⟨rfl, hrest⟩
  · exact .inl (ht.recased h)
  · obtain ⟨c, rest, rfl, hc, hn⟩ := List.map_eq_cons_iff.1 h
    rw [List.map_eq_nil_iff.1 hn, eq_of_toUpper hc rfl]
    exact .inr ⟨rfl, hr.eq_nil hrest⟩

theorem Fits.recased_literal {form : StringForm} {opening opening' t : List Char}
    {space closed : Bool} (hp : Fits rest (.literal form opening space t closed))
    (h : SameLetters opening opening') (hr : SameLetters rest rest') :
    Fits rest' (.literal form opening' space t closed) := by
  obtain ⟨hopening, hform, hclosing, hends, hspace, hrest⟩ := hp
  have hbody : SameLetters (body form space t closed ++ rest) (body form space t closed ++ rest') :=
    SameLetters.append (.refl _) hr
  exact ⟨hopening.recased h, StringForm.ofWord?_recased h ▸ hform, hclosing, hends.recased hbody,
    fun hs => hbody.blank_head? rfl (hspace hs), fun hc => hr.eq_nil (hrest hc)⟩

/-- A piece may still stand where it stood. -/
theorem Recased.fits (h : p.Recased q) (hp : p.Fits rest) (hr : SameLetters rest rest') :
    q.Fits rest' := by
  cases h with
  | word h => exact hp.recased_word h hr
  | literal h => exact hp.recased_literal h hr
  | same =>
    cases p with
    | blank c => exact hp
    | line t =>
      refine ⟨hp.1, fun c' hc' => ?_⟩
      obtain ⟨c, hc, hu⟩ := hr.head? c' hc'
      rw [hp.2 c hc] at hu
      exact eq_of_toUpper hu rfl
    | comment t closed =>
      refine ⟨hp.1, ?_⟩
      cases closed with
      | true => exact hp.2
      | false => exact ⟨hp.2.1, hr.eq_nil hp.2.2⟩
    | word t => exact hp.recased_word (.refl t) hr
    | literal form opening space t closed => exact hp.recased_literal (.refl opening) hr

/-- The pieces of a source are those of the other one, in another letter case. -/
theorem sound_of_recased (h : List.Forall₂ Recased ps qs) (hs : Sound ps) : Sound qs := by
  induction h with
  | nil => trivial
  | cons hp hps ih => exact ⟨hp.fits hs.1 (sameLetters_source hps), ih hs.2⟩

/-- Their lexemes are alike. -/
theorem Recased.map_lexeme? (h : p.Recased q) :
    q.lexeme?.map Blur.letters.lexeme = p.lexeme?.map Blur.letters.lexeme := by
  cases h with
  | same | literal => rfl
  | @word t t' h =>
    refine congrArg some ?_
    unfold lexemeOfWord
    rw [Number.read?_recased h]
    cases Number.read? (String.ofList t) with
    | some value => rfl
    | none =>
      refine congrArg Lexeme.word (String.toList_inj.1 ?_)
      rw [Blur.text, Blur.text, String.toList_map, String.toList_map, String.toList_ofList,
        String.toList_ofList]
      exact h

theorem map_token_tokens (h : List.Forall₂ Recased ps qs) (l : Location) :
    (tokens l qs).map Blur.letters.token = (tokens l ps).map Blur.letters.token := by
  have htoken (x : Option Lexeme) (l : Location) :
      ((x.map (Token.mk l)).toList.map Blur.letters.token) =
        ((x.map Blur.letters.lexeme).map (Token.mk l)).toList := by
    cases x <;> rfl
  induction h generalizing l with
  | nil => rfl
  | cons hp _ ih =>
    rw [tokens, tokens, List.map_append, List.map_append, htoken, htoken, hp.map_lexeme?,
      Location.advance_recased hp.sameLetters, ih]

end Piece

/-- The sources differ in the letter case of words, of numbers and of the words that open string
literals only. -/
def Recased (source source' : String) : Prop :=
  ∃ ps qs, Piece.Sound ps ∧ Piece.source ps = source.toList ∧ Piece.source qs = source'.toList ∧
    List.Forall₂ Piece.Recased ps qs

/-- Their tokens stand at the same places and are alike. -/
theorem Recased.map_token_ofSource {source source' : String} (h : Recased source source')
    (path : String) : (Token.ofSource path source').map Blur.letters.token =
      (Token.ofSource path source).map Blur.letters.token := by
  obtain ⟨ps, qs, hps, hs, hs', h⟩ := h
  rw [Token.ofSource_of_sound hps hs, Token.ofSource_of_sound (Piece.sound_of_recased h hps) hs']
  exact Piece.map_token_tokens h _

end StackLang
