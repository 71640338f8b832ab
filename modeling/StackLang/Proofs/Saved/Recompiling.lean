import StackLang.Proofs.Saved.Rebuilding
import StackLang.Proofs.Saved.Sources
import StackLang.Proofs.Token.Printing

/-!
# Definitions that are evaluated again

The text of a definition is read as the colon, a name, the lexemes of its body and the semicolon,
whatever the name is.  Evaluated where nothing is in flight it puts one word behind the others, with
the code that the lexemes assemble there.

* `Lexeme.Printable`: a lexeme that is read as it is printed before a blank.
* `lexemes_definition`: how the text of a definition is read.
* `Action.evaluateToEnd`: an evaluation with all of its steps, in every mode.
* `exists_of_definition`: what the text of a definition makes of a session.
-/

namespace StackLang

open Session Action

/-! ## Texts -/

/-- Before a blank, and at the end, the lexeme is read as it is printed. -/
structure Lexeme.Printable (x : Lexeme) : Prop where
  lexeme : (Piece.ofLexeme x).lexeme? = some x
  fits : ∀ rest, Piece.EndsWord rest → (Piece.ofLexeme x).Fits rest

namespace Lexeme

theorem printable_number {n : Number} (h : Number.read? n.text = some n) :
    (number n).Printable := by
  refine ⟨?_, fun rest hends => Piece.fits_name (Number.isName_text n) hends⟩
  simp [Piece.ofLexeme, Piece.lexeme?, Piece.lexemeOfWord, h]

theorem printable_string {form : StringForm} {text : String} (h : form.closing ∉ text.toList) :
    (string form text).Printable :=
  ⟨by simp [Piece.ofLexeme, Piece.lexeme?], fun _ _ => Piece.fits_literal h⟩

theorem printable_word {w : String} (hname : IsName w) (h : Number.read? w = none) :
    (word w).Printable := by
  refine ⟨?_, fun rest hends => Piece.fits_name hname hends⟩
  simp [Piece.ofLexeme, Piece.lexeme?, Piece.lexemeOfWord, h]

/-- What was read from a text is printable, if its float is read as it is printed. -/
theorem Read.printable {x : Lexeme} (h : x.Read) (hfloat : Piece.FloatReadsBack x) :
    x.Printable := by
  cases x with
  | number n =>
    obtain ⟨w, hw⟩ := h.number n rfl
    exact printable_number (Number.read?_text hw fun y hy => hfloat y (congrArg Lexeme.number hy))
  | string form text => exact printable_string h.written
  | word w =>
    obtain ⟨hspelled, hopens, hnumber⟩ := h.written
    exact printable_word ⟨hspelled, hopens⟩ hnumber

end Lexeme

namespace Piece

/-- What is printed for lexemes may stand before a blank. -/
theorem sound_printed_append {xs : List Lexeme} {ps : List Piece} (hxs : ∀ x ∈ xs, x.Printable)
    (hps : Sound ps) (hends : EndsWord (source ps)) : Sound (printed xs ++ ps) ∧
      (printed xs ++ ps).filterMap lexeme? = xs ++ ps.filterMap lexeme? := by
  induction xs with
  | nil => exact ⟨hps, rfl⟩
  | cons x xs ih =>
    have hx := hxs x List.mem_cons_self
    obtain ⟨hsound, hlexemes⟩ := ih fun y hy => hxs y (List.mem_cons_of_mem x hy)
    cases xs with
    | nil => exact ⟨⟨hx.fits _ hends, hps⟩, List.filterMap_cons_some hx.lexeme⟩
    | cons y ys =>
      have hcons : printed (x :: y :: ys) = ofLexeme x :: blank ' ' :: printed (y :: ys) :=
        List.intersperse_cons_cons
      rw [hcons]
      refine ⟨⟨hx.fits _ fun c hc => ?_, rfl, hsound⟩, ?_⟩
      · obtain rfl : ' ' = c := Option.some.inj hc
        rfl
      · rw [List.cons_append, List.filterMap_cons_some hx.lexeme, List.cons_append,
          List.filterMap_cons_none rfl, hlexemes]
        rfl

end Piece

/-- The text of a definition is read as the name between colon and body, and the semicolon. -/
theorem lexemes_definition {name : String} {xs : List Lexeme} (hname : IsName name)
    (hxs : ∀ x ∈ xs, x.Printable) (path : String) :
    (Token.ofSource path (": " ++ name ++ " " ++ Lexeme.bodyText xs ++ " ;")).map (·.lexeme) =
      .word ":" :: Piece.lexemeOfWord name :: (xs ++ [.word ";"]) := by
  have blank {rest : List Char} : Piece.EndsWord (' ' :: rest) := fun c hc => by
    obtain rfl : ' ' = c := Option.some.inj hc
    rfl
  have hcolon : IsName ":" := ⟨by decide, by decide⟩
  have hsemicolon : IsName ";" := ⟨by decide, by decide⟩
  have hend : Piece.Sound [.blank ' ', .word ";".toList] :=
    ⟨rfl, Piece.fits_name hsemicolon nofun, trivial⟩
  obtain ⟨hsound, hlexemes⟩ := Piece.sound_printed_append hxs hend blank
  have hps : Piece.Sound (.word ":".toList :: .blank ' ' :: .word name.toList :: .blank ' ' ::
      (Piece.printed xs ++ [.blank ' ', .word ";".toList])) :=
    ⟨Piece.fits_name hcolon blank, rfl, Piece.fits_name hname blank, rfl, hsound⟩
  have word (w : String) : (Piece.word w.toList).lexeme? = some (Piece.lexemeOfWord w) := by
    rw [Piece.lexeme?, String.ofList_toList]
  rw [Token.ofSource_of_sound hps, Piece.map_lexeme_tokens]
  · rw [List.filterMap_cons_some (word ":"), List.filterMap_cons_none rfl,
      List.filterMap_cons_some (word name), List.filterMap_cons_none rfl, hlexemes,
      List.filterMap_cons_none rfl, List.filterMap_cons_some (word ";"), List.filterMap_nil,
      show Piece.lexemeOfWord ":" = .word ":" by decide,
      show Piece.lexemeOfWord ";" = .word ";" by decide]
  · simp [Piece.source_printed, Piece.text, Lexeme.bodyText]

theorem name?_lexemeOfWord (w : String) : ∃ name, (Piece.lexemeOfWord w).name? = some name := by
  unfold Piece.lexemeOfWord
  cases Number.read? w <;> exact ⟨_, rfl⟩

/-! ## Evaluations -/

/-- Evaluate a source to its end, in step mode by asking for its steps. -/
def Action.evaluateToEnd (fuel : Nat) (source : String) : Action Unit := do
  if (← get).mode = .step then evaluateStepwise source fuel else evaluate fuel source

namespace Session

variable {r s s' t : Session}

/-- A run from a session where steps lead to one with nothing in flight ends there. -/
theorem LeadsTo.runPending (h : s.LeadsTo t) (ht : t.hasPending = false) (hs : s.Beside s') :
    ∃ steps u, t.Beside u ∧ ∀ more, runPending (steps + more) s' = .ok () u := by
  obtain ⟨steps, h⟩ := h
  obtain ⟨u, hu, hb⟩ := h s' hs
  have hidle : u.hasPending = false := by rwa [hasPending, hb.frame, hb.sources]
  refine ⟨steps, u, hb, fun more => ?_⟩
  rw [runPending_add, hu]
  exact runPending_of_idle hidle more

/-- An evaluation is where the tokens of its source lead. -/
theorem evaluateToEnd_of_leadsTo {source : String} (hp : r.hasPending = false)
    (hr : r.cancelled = false)
    (h : (r.feeding (Token.ofSource inputPath source) none).LeadsTo t)
    (ht : t.hasPending = false) :
    ∃ fuel u, evaluateToEnd fuel source r = .ok () u ∧ t.Beside u := by
  obtain ⟨hf, hsources⟩ := idle_of_hasPending hp
  have hqueued : { r with sources := r.sources ++ [.ofSource inputPath source] } =
      r.reading (Token.ofSource inputPath source) none [] := by
    rw [hsources]
    rfl
  by_cases hm : r.mode = .step
  · have hdrops : Yields dropUsedSources (r.reading (Token.ofSource inputPath source) none []) ()
        (r.feeding (Token.ofSource inputPath source) none) :=
      yields_dropUsedSources hf fun _ => rfl
    obtain ⟨v, hv, hb⟩ := hdrops _ (.refl _)
    obtain ⟨steps, u, hu, hrun⟩ := h.runPending ht hb
    refine ⟨steps + 1, u, ?_, hu⟩
    unfold evaluateToEnd
    rw [StackLang.get_bind, if_pos hm, evaluateStepwise, bind_apply, evaluate_of_step hm, hqueued,
      checked_ok hv]
    exact (stepUntilDone_eq steps v).trans (hrun 1)
  · obtain ⟨steps, u, hu, hrun⟩ := ((leadsTo_feeding hf hr).trans h).runPending ht (.refl _)
    refine ⟨steps, u, ?_, hu⟩
    unfold evaluateToEnd
    rw [StackLang.get_bind, if_neg hm, evaluate_of_run hm, hqueued]
    exact hrun 0

/-- The text of a definition puts one word behind those that are known, with the code that the
lexemes of its body assemble. -/
theorem exists_of_definition {xs : List Lexeme} {y : Definition} {m : Bool} {name : String}
    (hp : r.hasPending = false) (hr : r.cancelled = false)
    (hopen : r.dictionary.Finds (.defining .colon))
    (hclose : r.dictionary.Finds (.defining .semicolon)) (hname : IsName name)
    (hxs : ∀ x ∈ xs, x.Printable) (hy : r.dictionary.assemble? xs (.bare, false) = some (y, m))
    (hc : y.control = [])
    (hstray : Definition.strayTarget? (y.code.push ⟨none, .exit⟩) = none) :
    ∃ fuel u e,
      evaluateToEnd fuel (": " ++ name ++ " " ++ Lexeme.bodyText xs ++ " ;") r = .ok () u ∧
        u.hasPending = false ∧ u.dictionary = r.dictionary.push e ∧
        (∀ given, (Piece.lexemeOfWord name).name? = some given → e.name = Text.uppercase given) ∧
        e.Like (Entry.filled (y.code.push ⟨none, .exit⟩) (Lexeme.bodyText xs)
          (Entry.reserved .unspecified "")) r.dictionary.size := by
  obtain ⟨hf, -⟩ := idle_of_hasPending hp
  have hlexemes := lexemes_definition hname hxs inputPath
  obtain ⟨colon, tokens, htokens, hcolon, h₁⟩ := List.map_eq_cons_iff.1 hlexemes
  obtain ⟨named, tokens, rfl, hnamed, h₂⟩ := List.map_eq_cons_iff.1 h₁
  obtain ⟨body, tokens, rfl, rfl, h₃⟩ := List.map_eq_append_iff.1 h₂
  obtain ⟨semicolon, tokens, rfl, hsemicolon, h₄⟩ := List.map_eq_cons_iff.1 h₃
  obtain rfl := List.map_eq_nil_iff.1 h₄
  obtain ⟨given, hgiven⟩ := name?_lexemeOfWord name
  have hruns : r.dictionary.RunsOnly (r.RunsAlone 0 r) (body.map Token.lexeme) := by
    intro z hz i hi
    rw [Dictionary.interlude?_of_assemble? hy z hz] at hi
    cases hi
  have hproper := Dictionary.proper_of_assemble? hy
  obtain ⟨stack, l, e, hlead, hcalled, -, hlike⟩ := leadsTo_definition hf hr hopen hclose hcolon
    (show named.name? = some given by rw [Token.name?, hnamed, hgiven]) hsemicolon hruns
    (hproper.symm ▸ hy) hc hstray []
  rw [← htokens] at hlead
  have hidle : ((({ r with stack } : Session).knowing l (r.dictionary.push e)).feeding []
      none).hasPending = false := by
    simp [hasPending, feeding, knowing, hf]
  obtain ⟨fuel, u, hu, hb⟩ := evaluateToEnd_of_leadsTo hp hr hlead hidle
  refine ⟨fuel, u, e, hu, ?_, hb.dictionary, fun found hfound => ?_, hlike⟩
  · rwa [hasPending, hb.frame, hb.sources]
  · rw [hcalled, Text.uppercase_uppercase, Option.some.inj (hgiven.symm.trans hfound)]

end Session

end StackLang
