import StackLang.Proofs.Token.Pieces

/-!
# Lines of a source

A line that closes what it opens is read by itself as it is read among other lines: what is written
behind a line break begins a new piece.  So the tokens of a text are those of its lines, but for
their places.

* `Piece.IsWhole`, `Whole`: what is closed on its line.
* `Piece.Fits.before_break`: such a piece may stand before a line break.
* `Token.map_lexeme_join`: the tokens of lines that are joined.
-/

namespace StackLang

namespace Piece

/-- Nothing is open at the end of the piece, and it is no `(` without anything behind it. -/
def IsWhole : Piece → Prop
  | blank _ | line _ => True
  | comment _ closed | literal _ _ _ _ closed => closed = true
  | word t => t ≠ ['(']

instance : (p : Piece) → Decidable p.IsWhole
  | blank _ | line _ => inferInstanceAs (Decidable True)
  | comment _ closed | literal _ _ _ _ closed => inferInstanceAs (Decidable (closed = true))
  | word t => inferInstanceAs (Decidable (t ≠ ['(']))

variable {p : Piece} {ps qs : List Piece} {rest : List Char}

theorem EndsWord.before_break (h : EndsWord rest) (more : List Char) :
    EndsWord (rest ++ '\n' :: more) := by
  intro c hc
  cases rest with
  | nil =>
    obtain rfl : '\n' = c := Option.some.inj hc
    rfl
  | cons a rest => exact h c hc

/-- A piece that leaves nothing open may stand before a line break as well as before the end. -/
theorem Fits.before_break (hp : p.Fits rest) (hw : p.IsWhole) (more : List Char) :
    p.Fits (rest ++ '\n' :: more) := by
  cases p with
  | blank c => exact hp
  | line t =>
    refine ⟨hp.1, fun c hc => ?_⟩
    cases rest with
    | nil => exact (Option.some.inj hc).symm
    | cons a rest => exact hp.2 c hc
  | comment t closed =>
    obtain rfl : closed = true := hw
    exact hp
  | word t =>
    obtain ⟨ht, hform, hends⟩ := hp
    exact ⟨.inl (ht.resolve_right fun h => hw h.1), hform, hends.before_break more⟩
  | literal form opening space t closed =>
    obtain rfl : closed = true := hw
    obtain ⟨hopening, hform, hclosing, hends, hspace, -⟩ := hp
    refine ⟨hopening, hform, hclosing, ?_, fun hs => ?_, nofun⟩
    · rw [← List.append_assoc]
      exact hends.before_break more
    · rw [← List.append_assoc]
      cases hb : body form space t true ++ rest with
      | nil => simp
      | cons a tail =>
        have := hspace hs
        rw [hb] at this
        exact this

/-- What leaves nothing open may be joined to what begins the next line. -/
theorem Sound.join (hps : Sound ps) (hw : ∀ p ∈ ps, p.IsWhole) (hqs : Sound qs) :
    Sound (ps ++ blank '\n' :: qs) := by
  induction ps with
  | nil => exact ⟨rfl, hqs⟩
  | cons p ps ih =>
    have hbreak := hps.1.before_break (hw p List.mem_cons_self) (source qs)
    refine ⟨?_, ih hps.2 fun q hq => hw q (List.mem_cons_of_mem _ hq)⟩
    show p.Fits (source (ps ++ blank '\n' :: qs))
    rw [source_append]
    exact hbreak

end Piece

/-- Every string literal and every comment in parentheses is closed on the line, and its last token
is no bare `(`. -/
def Whole (line : String) : Prop :=
  ∃ ps, Piece.Sound ps ∧ Piece.source ps = line.toList ∧ ∀ p ∈ ps, p.IsWhole

theorem Token.map_lexeme_of_sound {ps : List Piece} {source : String} (h : Piece.Sound ps)
    (hs : Piece.source ps = source.toList) (path : String) :
    (Token.ofSource path source).map (·.lexeme) = ps.filterMap Piece.lexeme? := by
  rw [Token.ofSource_of_sound h hs, Piece.map_lexeme_tokens]

/-- Lines that are joined have the pieces of each line, and a blank between two of them. -/
theorem exists_pieces_join (path : String) {lines : List String} (h : ∀ line ∈ lines, Whole line) :
    ∃ ps, Piece.Sound ps ∧ Piece.source ps = ("\n".intercalate lines).toList ∧
      ps.filterMap Piece.lexeme? =
        lines.flatMap fun line => (Token.ofSource path line).map (·.lexeme) := by
  induction lines with
  | nil => exact ⟨[], trivial, rfl, rfl⟩
  | cons line lines ih =>
    obtain ⟨ps, hps, hline, hw⟩ := h line List.mem_cons_self
    have hlexemes := Token.map_lexeme_of_sound hps hline path
    cases lines with
    | nil => exact ⟨ps, hps, by simpa using hline, by simp [hlexemes]⟩
    | cons next lines =>
      obtain ⟨qs, hqs, hrest, hq⟩ := ih fun x hx => h x (List.mem_cons_of_mem _ hx)
      refine ⟨ps ++ .blank '\n' :: qs, hps.join hw hqs, ?_, ?_⟩
      · rw [String.intercalate_cons_cons, Piece.source_append, Piece.source_cons, hline, hrest]
        simp [Piece.text]
      · rw [List.filterMap_append, List.filterMap_cons_none rfl, hq, ← hlexemes]
        rfl

/-- The tokens of lines that are joined are those of the lines, in other places. -/
theorem Token.map_lexeme_join (path : String) {lines : List String}
    (h : ∀ line ∈ lines, Whole line) :
    (Token.ofSource path ("\n".intercalate lines)).map (·.lexeme) =
      lines.flatMap fun line => (Token.ofSource path line).map (·.lexeme) := by
  obtain ⟨ps, hps, hs, hlexemes⟩ := exists_pieces_join path h
  rw [Token.map_lexeme_of_sound hps hs, hlexemes]

end StackLang
