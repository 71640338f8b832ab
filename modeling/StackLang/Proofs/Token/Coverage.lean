import Mathlib.Data.List.Induction
import StackLang.Proofs.Token.Lookahead

/-!
# What becomes of a source

Nothing of a source is passed over and nothing is read twice: it consists of gaps and lexemes in
turn, each lexeme is what its token was read from, and the places of the tokens are those that come
from counting the characters before them.

* `Balanced`, `NeverCloses`: the parentheses of a comment.
* `Gap`, `Spelling`: what stands between two tokens, and what a token is read from.
* `Covers`: gaps and lexemes in turn, up to the end.
* `tokens_cover`: the tokens of a source cover it.
-/

namespace StackLang

/-! ## Places -/

/-- The place behind the first characters of a source, by counting: one line for each line break,
and one column for each character behind the last of them. -/
def Location.behind (path : String) (before : List Char) : Location where
  path := path
  line := 1 + before.count '\n'
  column := 1 + (before.reverse.takeWhile (· != '\n')).length

/-- Passing over a text one character at a time counts its lines and columns. -/
theorem Location.advance_start (path : String) (before : List Char) :
    (start path).advance before = behind path before := by
  induction before using List.reverseRecOn with
  | nil => rfl
  | append_singleton before c ih =>
    rw [advance_append, ih, advance_cons, advance_nil, after]
    by_cases hc : c = '\n'
    · subst hc
      simp [behind, Nat.add_assoc]
    · have hcount : [c].count '\n' = 0 := by simpa [List.count_singleton] using hc
      simp [behind, hc, hcount, Nat.add_assoc]

/-! ## Gaps -/

/-- No parenthesis is closed that was not opened in the text. -/
def NeverCloses (t : List Char) : Prop :=
  ∀ before, before <+: t → before.count ')' ≤ before.count '('

/-- The parentheses of the text are closed in it, each behind where it was opened. -/
def Balanced (t : List Char) : Prop :=
  NeverCloses t ∧ t.count '(' = t.count ')'

/-- The text begins with a blank. -/
def BeginsBlank (t : List Char) : Prop :=
  ∃ b ∈ t.head?, isBlank b = true

/-- The text is a blank, a comment up to a line break or the end of the source, or a comment in
parentheses, which runs to the end of the source if it is not closed.  What follows is `rest`. -/
inductive GapPart (rest : List Char) : List Char → Prop
  | blank {c : Char} (hc : isBlank c = true) : GapPart rest [c]
  | line {t : List Char} (ht : '\n' ∉ t) (hend : ∀ c ∈ rest.head?, c = '\n') :
    GapPart rest ('\\' :: t)
  | comment {t : List Char} (hb : BeginsBlank t) (ht : Balanced t) :
    GapPart rest ('(' :: t ++ [')'])
  | unclosed {t : List Char} (hb : BeginsBlank t) (ht : NeverCloses t) (hend : rest = []) :
    GapPart rest ('(' :: t)

/-- The text consists of blanks and comments only. -/
inductive Gap (rest : List Char) : List Char → Prop
  | nil : Gap rest []
  | cons {part gap : List Char} (hpart : GapPart (gap ++ rest) part) (hgap : Gap rest gap) :
    Gap rest (part ++ gap)

/-- How deep the parentheses are behind a text that does not close the comment. -/
theorem count_of_depth? {depth d : Nat} {t : List Char} (hpos : 1 ≤ depth)
    (h : Piece.depth? depth t = some d) :
    (∀ before, before <+: t → before.count ')' + 1 ≤ depth + before.count '(') ∧
      d + t.count ')' = depth + t.count '(' := by
  have prefixes {P : List Char → Prop} {c : Char} {t : List Char} (hnil : P [])
      (hcons : ∀ before, before <+: t → P (c :: before)) :
      ∀ before, before <+: c :: t → P before := by
    intro before hbefore
    cases before with
    | nil => exact hnil
    | cons c' before =>
      obtain ⟨rfl, htail⟩ := List.cons_prefix_cons.1 hbefore
      exact hcons before htail
  fun_induction Piece.depth? depth t with
  | case1 depth =>
    cases h
    refine ⟨fun before hbefore => ?_, rfl⟩
    rw [List.prefix_nil.1 hbefore]
    simpa using hpos
  | case2 depth t ih =>
    obtain ⟨hbefore, hcount⟩ := ih (by omega) h
    refine ⟨prefixes (by simpa using hpos) fun before hp => ?_, ?_⟩
    · have := hbefore before hp
      simp
      omega
    · simp
      omega
  | case3 => cases h
  | case4 depth t hle hne ih =>
    obtain ⟨hbefore, hcount⟩ := ih (by omega) h
    refine ⟨prefixes (by simpa using hpos) fun before hp => ?_, ?_⟩
    · have := hbefore before hp
      simp
      omega
    · simp
      omega
  | case5 depth c t hopen hclose ih =>
    obtain ⟨hbefore, hcount⟩ := ih hpos h
    refine ⟨prefixes (by simpa using hpos) fun before hp => ?_, ?_⟩
    · rw [List.count_cons_of_ne hopen, List.count_cons_of_ne hclose]
      exact hbefore before hp
    · rw [List.count_cons_of_ne hopen, List.count_cons_of_ne hclose]
      exact hcount

theorem neverCloses_of_depth? {t : List Char} (h : (Piece.depth? 1 t).isSome) : NeverCloses t := by
  obtain ⟨d, hd⟩ := Option.isSome_iff_exists.1 h
  intro before hbefore
  have := (count_of_depth? (Nat.le_refl 1) hd).1 before hbefore
  omega

theorem balanced_of_depth? {t : List Char} (h : Piece.depth? 1 t = some 1) : Balanced t := by
  have := (count_of_depth? (Nat.le_refl 1) h).2
  exact ⟨neverCloses_of_depth? (h ▸ rfl), by omega⟩

/-- A piece that gives no token is part of a gap. -/
theorem gapPart_of_fits {p : Piece} {rest : List Char} (h : p.Fits rest) (hp : p.lexeme? = none) :
    GapPart rest p.text := by
  cases p with
  | blank c => exact .blank h
  | line t => exact .line h.1 h.2
  | comment t closed =>
    obtain ⟨hb, h⟩ := h
    cases closed with
    | true => exact .comment hb (balanced_of_depth? h)
    | false =>
      rw [Piece.text, if_neg Bool.false_ne_true, List.append_nil]
      exact .unclosed hb (neverCloses_of_depth? h.1) h.2
  | word t | literal form opening space t closed => cases hp

/-! ## Lexemes -/

/-- The text is read as one word: it has no blank in it and begins no comment, and a blank follows
or the source ends. -/
structure Unbroken (rest t : List Char) : Prop where
  ne_nil : t ≠ []
  blanks : ∀ c ∈ t, isBlank c = false
  line : t.head? ≠ some '\\'
  comment : t = ['('] → rest = []
  ends : ∀ c ∈ rest.head?, isBlank c = true

/-- The text is what a number, a word or a string literal is read from, with `rest` behind it.  A
literal is its opening word, at most one space that is dropped, its text, and the closing character,
unless the source ends without one. -/
inductive Spelling (rest : List Char) : List Char → Lexeme → Prop
  | number {t : List Char} {value : Number} (ht : Unbroken rest t)
    (hform : StringForm.ofWord? (String.ofList t) = none)
    (hread : Number.read? (String.ofList t) = some value) : Spelling rest t (.number value)
  | word {t : List Char} (ht : Unbroken rest t)
    (hform : StringForm.ofWord? (String.ofList t) = none)
    (hread : Number.read? (String.ofList t) = none) : Spelling rest t (.word (String.ofList t))
  | string {form : StringForm} {opening space t closing : List Char}
    (ht : Unbroken (space ++ t ++ closing ++ rest) opening)
    (hform : StringForm.ofWord? (String.ofList opening) = some form)
    (hspace : space = [' '] ∨ space = [] ∧ (t ++ closing ++ rest).head? ≠ some ' ')
    (htext : form.closing ∉ t) (hclosing : closing = [form.closing] ∨ closing = [] ∧ rest = []) :
    Spelling rest (opening ++ space ++ t ++ closing) (.string form (String.ofList t))

theorem Unbroken.of_spelled {rest t : List Char} (h : Cursor.Spelled t)
    (hends : Piece.EndsWord rest) : Unbroken rest t where
  ne_nil := h.ne_nil
  blanks := h.blanks
  line := h.head
  comment ht := (h.comment ht).elim
  ends := hends

/-- A piece that gives a token is a spelling of it. -/
theorem spelling_of_fits {p : Piece} {rest : List Char} {x : Lexeme} (h : p.Fits rest)
    (hp : p.lexeme? = some x) : Spelling rest p.text x := by
  cases p with
  | blank c | line t | comment t closed => cases hp
  | word t =>
    obtain ⟨ht, hform, hends⟩ := h
    have hunbroken : Unbroken rest t := by
      rcases ht with ht | ⟨rfl, rfl⟩
      · exact .of_spelled ht hends
      · exact ⟨by simp, by simp [isBlank], by simp, fun _ => rfl, hends⟩
    cases hp
    unfold Piece.lexemeOfWord
    cases hread : Number.read? (String.ofList t) with
    | some value => exact .number hunbroken hform hread
    | none => exact .word hunbroken hform hread
  | literal form opening space t closed =>
    obtain ⟨ht, hform, htext, hends, hspace, hrest⟩ := h
    cases hp
    have hbody : Piece.body form space t closed =
        (if space then [' '] else []) ++ t ++ if closed then [form.closing] else [] := by
      rw [Piece.body, List.append_assoc]
    rw [Piece.text, hbody, ← List.append_assoc, ← List.append_assoc]
    refine .string (hbody ▸ .of_spelled ht hends) hform ?_ htext ?_
    · cases space with
      | true => exact .inl rfl
      | false =>
        have := hspace rfl
        rw [hbody] at this
        exact .inr ⟨rfl, this⟩
    · cases closed with
      | true => exact .inl rfl
      | false => exact .inr ⟨rfl, hrest rfl⟩

/-! ## The whole source -/

/-- Behind `before`, the text is a gap and a lexeme in turn, one lexeme for each token, and ends
with a gap.  Each token stands where its lexeme begins, and the next one is looked for where it
ends. -/
inductive Covers (path : String) : (before text : List Char) → List (Token × Cursor) → Prop
  | ends {before gap : List Char} (hgap : Gap [] gap) : Covers path before gap []
  | token {before gap t rest : List Char} {x : Lexeme} {ts : List (Token × Cursor)}
    (hgap : Gap (t ++ rest) gap) (ht : Spelling rest t x)
    (h : Covers path (before ++ gap ++ t) rest ts) :
    Covers path before (gap ++ t ++ rest)
      ((⟨.behind path (before ++ gap), x⟩, ⟨rest, .behind path (before ++ gap ++ t)⟩) :: ts)

/-- A further blank or comment may stand before a gap. -/
theorem Covers.gapPart {path : String} {before part text : List Char} {ts : List (Token × Cursor)}
    (h : Covers path (before ++ part) text ts) (hpart : GapPart text part) :
    Covers path before (part ++ text) ts := by
  cases h with
  | ends hgap => exact .ends (.cons (by rwa [List.append_nil]) hgap)
  | @token _ gap t rest x ts hgap ht h =>
    rw [List.append_assoc] at hpart
    rw [List.append_assoc before part gap] at h ⊢
    rw [← List.append_assoc part, ← List.append_assoc part]
    exact .token (.cons hpart hgap) ht h

open Piece in
/-- The pieces of a source cover it with their tokens. -/
theorem covers_of_sound {ps : List Piece} (h : Sound ps) (path : String) (before : List Char) :
    Covers path before (source ps)
      (Cursor.tokens ⟨source ps, .behind path before⟩) := by
  induction ps generalizing before with
  | nil =>
    rw [source_nil, Cursor.tokens_nil]
    exact .ends .nil
  | cons p ps ih =>
    obtain ⟨hp, hps⟩ := h
    have hrest := ih hps (before ++ p.text)
    have hplace : (Location.behind path before).advance p.text =
        .behind path (before ++ p.text) := by
      rw [← Location.advance_start, ← Location.advance_start, Location.advance_append]
    rw [source_cons]
    cases hx : p.lexeme? with
    | none =>
      rw [Cursor.tokens_congr (Cursor.skipGap_of_gap hp hx), hplace]
      exact hrest.gapPart (gapPart_of_fits hp hx)
    | some x =>
      rw [Cursor.tokens_of_nextToken?, Cursor.nextToken?_of_lexeme hp hx, hplace]
      have htoken : Covers path before ([] ++ p.text ++ source ps) _ :=
        .token .nil (spelling_of_fits hp hx) (by rwa [List.append_nil])
      simpa using htoken

namespace Cursor

/-- Behind the first token, the source ends where it ends before it. -/
theorem finish_of_nextToken? {c d : Cursor} {t : Token} (h : c.nextToken? = some (t, d)) :
    c.finish = d.finish := by
  unfold finish
  rw [tokens_of_nextToken?, h]
  dsimp only
  rw [List.getLast?_cons]
  cases d.tokens.getLast? <;> rfl

/-- A gap before the tokens makes no difference to where the source ends. -/
theorem finish_congr {c d : Cursor} (h : c.skipGap = d.skipGap) : c.finish = d.finish := by
  unfold finish
  rw [tokens_congr h]
  cases d.tokens.getLast? with
  | none => exact h
  | some found => rfl

open Piece in
theorem finish_of_sound {ps : List Piece} (h : Sound ps) (l : Location) :
    finish ⟨source ps, l⟩ = ⟨[], l.advance (source ps)⟩ := by
  induction ps generalizing l with
  | nil =>
    rw [source_nil, finish, tokens_nil]
    exact skipGap_eq_self (by simp) (by simp)
  | cons p ps ih =>
    obtain ⟨hp, hps⟩ := h
    rw [source_cons, Location.advance_append, ← ih hps]
    cases hx : p.lexeme? with
    | none => exact finish_congr (skipGap_of_gap hp hx)
    | some x => exact finish_of_nextToken? (nextToken?_of_lexeme hp hx)

end Cursor

/-- A source is gaps and lexemes in turn, one lexeme for each token, in order and with nothing left
over: the reader ends at the end of the source.  A source that is read on demand, with any number of
checks whether it is used up, gives the same tokens, and so does one that has been read ahead. -/
theorem tokens_cover (path source : String) (queries : List Query) :
    Covers path [] source.toList (Cursor.ofSource path source).tokens ∧
    (Cursor.ofSource path source).finish = ⟨[], .behind path source.toList⟩ ∧
    answers Lookahead.pull Lookahead.check queries (.ofSource path source) =
      listAnswers queries ((Cursor.ofSource path source).tokens.map (·.1)) ∧
    answers Pending.pull (fun p => (p.isExhausted, p)) queries (.ofSource path source) =
      listAnswers queries ((Cursor.ofSource path source).tokens.map (·.1)) := by
  obtain ⟨ps, hps, hsource⟩ := Piece.exists_sound source.toList
  have hstart : Cursor.ofSource path source = ⟨Piece.source ps, .start path⟩ := by
    rw [hsource]
    rfl
  refine ⟨?_, ?_, Lookahead.answers_lookahead path source queries,
    Pending.answers_pending queries _⟩
  · rw [hstart, ← hsource]
    exact covers_of_sound hps path []
  · rw [hstart, Cursor.finish_of_sound hps, hsource, Location.advance_start]

end StackLang
