import StackLang.Proofs.Token.Names
import StackLang.Proofs.Token.Pieces

/-!
# Tokens are printed as source

The tokens of a source, written one behind the other with a space between them, are a source with
the same tokens.  A string literal that was not closed is closed when it is printed, and a `(` that
ends a source ends what is printed.

* `Piece.ofLexeme`: the piece that is printed for a lexeme.
* `sound_printed`: what is printed consists of such pieces.
* `ofSource_printed`: it is read as the same tokens.
-/

namespace StackLang

namespace Piece

/-- The piece that is printed for a lexeme. -/
def ofLexeme : Lexeme → Piece
  | .number n => word n.text.toList
  | .string form text => literal form form.opening.toList true text.toList true
  | .word w => word w.toList

theorem text_ofLexeme (x : Lexeme) : (ofLexeme x).text = x.text.toList := by
  cases x with
  | number n | word w => rfl
  | string form t => simp [ofLexeme, text, body, Lexeme.text]

/-- The pieces that are printed for some lexemes. -/
def printed (xs : List Lexeme) : List Piece :=
  (xs.map ofLexeme).intersperse (blank ' ')

theorem source_printed (xs : List Lexeme) :
    source (printed xs) = (" ".intercalate (xs.map Lexeme.text)).toList := by
  induction xs with
  | nil => rfl
  | cons x xs ih =>
    cases xs with
    | nil => simp [printed, text_ofLexeme]
    | cons y ys =>
      simp only [printed, List.map_cons, List.intersperse_cons_cons, source_cons] at ih ⊢
      rw [ih, text_ofLexeme, String.intercalate_cons_cons]
      simp [text]

/-- A finite float is printed as a text that is read as the float. -/
def FloatReadsBack (x : Lexeme) : Prop :=
  ∀ y, x = .number (.float y) → y.isFinite = true →
    Number.read? (Number.floatText y) = some (.float y)

variable {p : Piece} {x : Lexeme} {rest rest' : List Char}

theorem read?_text_of_lexemeOfWord {w : String} {n : Number} (h : Number.read? w = some n)
    (hfloat : FloatReadsBack (lexemeOfWord w)) :
    lexemeOfWord w = .number n ∧ Number.read? n.text = some n := by
  have hword : lexemeOfWord w = .number n := by rw [lexemeOfWord, h]
  exact ⟨hword, Number.read?_text h fun y hy => hfloat y (hword.trans (congrArg Lexeme.number hy))⟩

theorem lexeme?_ofLexeme (hx : p.lexeme? = some x) (hfloat : FloatReadsBack x) :
    (ofLexeme x).lexeme? = some x := by
  cases p with
  | blank c | line t | comment t closed => cases hx
  | word t =>
    cases hx
    cases hn : Number.read? (String.ofList t) with
    | some n =>
      obtain ⟨hword, hread⟩ := read?_text_of_lexemeOfWord hn hfloat
      rw [hword]
      simp [ofLexeme, lexeme?, lexemeOfWord, hread]
    | none => simp [ofLexeme, lexeme?, lexemeOfWord, hn]
  | literal form opening space t closed =>
    cases hx
    simp [ofLexeme, lexeme?]

/-- A name may stand before a blank. -/
theorem fits_name {name : String} (h : IsName name) (hends : EndsWord rest) :
    Fits rest (.word name.toList) :=
  ⟨.inl h.spelled, by rw [String.ofList_toList, h.opens], hends⟩

/-- A literal is closed when it is printed, so that it may stand before anything. -/
theorem fits_literal {form : StringForm} {t : String} (ht : form.closing ∉ t.toList) :
    (ofLexeme (.string form t)).Fits rest := by
  have hspelled : Cursor.Spelled form.opening.toList := by cases form <;> decide
  refine ⟨hspelled, by rw [String.ofList_toList, StringForm.ofWord?_opening], ht, fun c hc => ?_,
    by simp, by simp⟩
  obtain rfl : ' ' = c := Option.some.inj hc
  rfl

/-- What is printed for a lexeme may stand before a blank, and where the lexeme ended its source it
may stand at the end. -/
theorem fits_ofLexeme (hx : p.lexeme? = some x) (hp : p.Fits rest)
    (hends : EndsWord rest') (hrest : rest = [] → rest' = []) : (ofLexeme x).Fits rest' := by
  cases p with
  | blank c | line t | comment t closed => cases hx
  | word t =>
    cases hx
    obtain ⟨ht, hform, -⟩ := hp
    cases hn : Number.read? (String.ofList t) with
    | some n =>
      rw [show lexemeOfWord (String.ofList t) = .number n by rw [lexemeOfWord, hn]]
      exact fits_name (Number.isName_text n) hends
    | none =>
      have hword : lexemeOfWord (String.ofList t) = .word (String.ofList t) := by
        rw [lexemeOfWord, hn]
      rw [hword]
      show Fits rest' (.word (String.ofList t).toList)
      rw [String.toList_ofList]
      exact ⟨ht.imp_right (And.imp_right hrest), hform, hends⟩
  | literal form opening space t closed =>
    cases hx
    exact fits_literal (by rw [String.toList_ofList]; exact hp.2.2.1)

theorem text_ne_nil (hp : p.Fits rest) : p.text ≠ [] := by
  cases p with
  | blank c | line t | comment t closed => exact List.cons_ne_nil _ _
  | word t =>
    rcases hp.1 with ht | ⟨rfl, -⟩
    · exact ht.ne_nil
    · exact List.cons_ne_nil _ _
  | literal form opening space t closed => exact List.append_ne_nil_of_left_ne_nil hp.1.ne_nil _

theorem source_ne_nil {ps : List Piece} (h : Sound ps) (hne : ps ≠ []) : source ps ≠ [] := by
  cases ps with
  | nil => exact (hne rfl).elim
  | cons p ps => exact List.append_ne_nil_of_left_ne_nil (text_ne_nil h.1) _

theorem sound_printed {ps : List Piece} (h : Sound ps)
    (hfloat : ∀ x ∈ ps.filterMap lexeme?, FloatReadsBack x) :
    Sound (printed (ps.filterMap lexeme?)) ∧
      (printed (ps.filterMap lexeme?)).filterMap lexeme? = ps.filterMap lexeme? := by
  induction ps with
  | nil => exact ⟨trivial, rfl⟩
  | cons p ps ih =>
    obtain ⟨hp, hps⟩ := h
    cases hx : p.lexeme? with
    | none =>
      rw [List.filterMap_cons_none hx] at hfloat ⊢
      exact ih hps hfloat
    | some x =>
      rw [List.filterMap_cons_some hx] at hfloat ⊢
      have hfloatx := hfloat x List.mem_cons_self
      obtain ⟨hsound, hlexemes⟩ := ih hps fun y hy => hfloat y (List.mem_cons_of_mem _ hy)
      cases hxs : ps.filterMap lexeme? with
      | nil =>
        refine ⟨⟨fits_ofLexeme hx hp nofun fun _ => rfl, trivial⟩, ?_⟩
        exact (List.filterMap_cons_some (lexeme?_ofLexeme hx hfloatx)).trans rfl
      | cons y ys =>
        rw [hxs] at hsound hlexemes
        have hne : source ps ≠ [] := source_ne_nil hps (by rintro rfl; cases hxs)
        have hcons : printed (x :: y :: ys) = ofLexeme x :: blank ' ' :: printed (y :: ys) :=
          List.intersperse_cons_cons
        rw [hcons]
        refine ⟨⟨fits_ofLexeme hx hp (fun c hc => ?_) fun h => (hne h).elim, rfl,
          hsound⟩, ?_⟩
        · obtain rfl : ' ' = c := Option.some.inj hc
          rfl
        · rw [List.filterMap_cons_some (lexeme?_ofLexeme hx hfloatx), List.filterMap_cons_none rfl,
            hlexemes]

end Piece

/-- The tokens of a source, printed with spaces between them, are read as the same tokens, if its
finite floats are read as they are printed. -/
theorem Token.ofSource_printed (path path' source : String)
    (hfloat : ∀ x, .number (.float x) ∈ (ofSource path source).map (·.lexeme) →
      x.isFinite = true → Number.read? (Number.floatText x) = some (.float x)) :
    (ofSource path' (" ".intercalate ((ofSource path source).map text))).map (·.lexeme) =
      (ofSource path source).map (·.lexeme) := by
  obtain ⟨ps, hps, hs⟩ := Piece.exists_sound source.toList
  have htext : (ofSource path source).map text =
      ((ofSource path source).map (·.lexeme)).map Lexeme.text := by
    rw [List.map_map]
    rfl
  rw [htext]
  rw [Token.ofSource_of_sound hps hs, Piece.map_lexeme_tokens] at hfloat ⊢
  obtain ⟨hsound, hlexemes⟩ := Piece.sound_printed hps fun x hx y hy => hfloat y (hy ▸ hx)
  rw [Token.ofSource_of_sound hsound (Piece.source_printed _), Piece.map_lexeme_tokens, hlexemes]

/-- Numbers of all kinds, texts with a space and a line break in them, a comment, and a `(` at the
end. -/
def mixedSource : String :=
  "1.5 -1e999 $-7F s\"  two\" .( a\nb) ( c ) dup ("

theorem lexemes_mixedSource :
    (Token.ofSource "a" mixedSource).map (·.lexeme) =
      [.number (.float 1.5), .number (.float (-(1.0 / 0.0))), .number (.int (-127)),
        .string .push " two", .string .display "a\nb", .word "dup", .word "("] := by
  rw [mixedSource, Token.ofSource_eq 60 (by decide)]
  decide +kernel

theorem ofSource_printed_mixedSource :
    " ".intercalate ((Token.ofSource "a" mixedSource).map Token.text) =
        "1.5 -1e999 -127 S\"  two\" .( a\nb) dup (" ∧
      (Token.ofSource "b" (" ".intercalate ((Token.ofSource "a" mixedSource).map Token.text))).map
        (·.lexeme) = (Token.ofSource "a" mixedSource).map (·.lexeme) := by
  constructor
  · rw [show (Token.ofSource "a" mixedSource).map Token.text =
      ((Token.ofSource "a" mixedSource).map (·.lexeme)).map Lexeme.text by
        rw [List.map_map]; rfl, lexemes_mixedSource]
    decide +kernel
  · refine Token.ofSource_printed "a" "b" mixedSource fun x hx hfinite => ?_
    rw [lexemes_mixedSource] at hx
    simp only [List.mem_cons, Lexeme.number.injEq, Number.float.injEq, reduceCtorEq,
      List.not_mem_nil, or_false] at hx
    rcases hx with rfl | rfl
    · decide +kernel
    · exact absurd hfinite (by decide +kernel)

end StackLang
