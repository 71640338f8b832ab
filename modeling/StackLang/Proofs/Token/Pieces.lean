import StackLang.Proofs.Saved.Reading

/-!
# The pieces of a source

A source is blanks, comments, words and string literals, one behind the other.  Which pieces a text
has is decided by what may stand before what: a word ends before a blank, a comment up to the end of
the line before a line break, and whatever is not closed runs to the end of the source.

* `Piece.Fits`: a piece that may stand before a text.
* `exists_sound`: every text has pieces.
* `tokens_of_sound`: the tokens of a text are those of its pieces, each where its piece begins.
-/

namespace StackLang

/-- A part of a source. -/
inductive Piece where
  | blank (c : Char)
  /-- `\` and the rest of the line. -/
  | line (text : List Char)
  /-- `(` and the text up to the matching `)`, or to the end of the source. -/
  | comment (text : List Char) (closed : Bool)
  /-- A number or a word. -/
  | word (text : List Char)
  /-- The word that opens a string literal, in any letter case, the space that is dropped, if it is
  there, and the text up to the closing character, or to the end of the source. -/
  | literal (form : StringForm) (opening : List Char) (space : Bool) (text : List Char)
    (closed : Bool)
deriving DecidableEq

namespace Piece

/-- What follows the opening word of a literal. -/
def body (form : StringForm) (space : Bool) (text : List Char) (closed : Bool) : List Char :=
  (if space then [' '] else []) ++ (text ++ if closed then [form.closing] else [])

/-- The piece as it stands in the source. -/
def text : Piece → List Char
  | blank c => [c]
  | line t => '\\' :: t
  | comment t closed => '(' :: (t ++ if closed then [')'] else [])
  | word t => t
  | literal form opening space t closed => opening ++ body form space t closed

/-- How deep the parentheses are behind the text, unless the comment is closed in it. -/
def depth? : (depth : Nat) → List Char → Option Nat
  | depth, [] => some depth
  | depth, c :: rest =>
    if c = '(' then depth? (depth + 1) rest
    else if c = ')' then if depth ≤ 1 then none else depth? (depth - 1) rest
    else depth? depth rest

/-- A word ends before the text. -/
def EndsWord (rest : List Char) : Prop :=
  ∀ c ∈ rest.head?, isBlank c = true

/-- The piece may stand before the text, and ends there. -/
def Fits (rest : List Char) : Piece → Prop
  | blank c => isBlank c = true
  | line t => '\n' ∉ t ∧ ∀ c ∈ rest.head?, c = '\n'
  | comment t closed => (∃ b ∈ t.head?, isBlank b = true) ∧
    if closed then depth? 1 t = some 1 else (depth? 1 t).isSome ∧ rest = []
  | word t => (Cursor.Spelled t ∨ t = ['('] ∧ rest = []) ∧
    StringForm.ofWord? (String.ofList t) = none ∧ EndsWord rest
  | literal form opening space t closed => Cursor.Spelled opening ∧
    StringForm.ofWord? (String.ofList opening) = some form ∧ form.closing ∉ t ∧
    EndsWord (body form space t closed ++ rest) ∧
    (space = false → (body form space t closed ++ rest).head? ≠ some ' ') ∧
    (closed = false → rest = [])

/-- The number or word that a text without blanks is. -/
def lexemeOfWord (w : String) : Lexeme :=
  match Number.read? w with
  | some value => .number value
  | none => .word w

/-- What the reader makes of the piece. -/
def lexeme? : Piece → Option Lexeme
  | blank _ | line _ | comment _ _ => none
  | word t => some (lexemeOfWord (String.ofList t))
  | literal form _ _ t _ => some (.string form (String.ofList t))

/-- The text that the pieces make up. -/
def source (ps : List Piece) : List Char :=
  ps.flatMap text

@[simp] theorem source_nil : source [] = [] := rfl

@[simp] theorem source_cons (p : Piece) (ps : List Piece) :
    source (p :: ps) = p.text ++ source ps := rfl

@[simp] theorem source_append (ps qs : List Piece) : source (ps ++ qs) = source ps ++ source qs :=
  List.flatMap_append

/-- Each piece may stand before those behind it. -/
def Sound : List Piece → Prop
  | [] => True
  | p :: ps => p.Fits (source ps) ∧ Sound ps

-- The instances for options are named, as others go through all characters.
instance (rest : List Char) : Decidable (EndsWord rest) :=
  show Decidable (∀ c ∈ rest.head?, isBlank c = true) from Option.decidableForallMem _

instance (rest : List Char) : (p : Piece) → Decidable (p.Fits rest)
  | blank c => inferInstanceAs (Decidable (isBlank c = true))
  | line t =>
    have : Decidable (∀ c ∈ rest.head?, c = '\n') := Option.decidableForallMem _
    inferInstanceAs (Decidable ('\n' ∉ t ∧ ∀ c ∈ rest.head?, c = '\n'))
  | comment t closed =>
    have : Decidable (∃ b ∈ t.head?, isBlank b = true) := Option.decidableExistsMem _
    match closed with
    | true => inferInstanceAs (Decidable ((∃ b ∈ t.head?, isBlank b = true) ∧
        depth? 1 t = some 1))
    | false => inferInstanceAs (Decidable ((∃ b ∈ t.head?, isBlank b = true) ∧
        (depth? 1 t).isSome ∧ rest = []))
  | word t => inferInstanceAs (Decidable ((Cursor.Spelled t ∨ t = ['('] ∧ rest = []) ∧
      StringForm.ofWord? (String.ofList t) = none ∧ EndsWord rest))
  | literal form opening space t closed => inferInstanceAs (Decidable (Cursor.Spelled opening ∧
      StringForm.ofWord? (String.ofList opening) = some form ∧ form.closing ∉ t ∧
      EndsWord (body form space t closed ++ rest) ∧
      (space = false → (body form space t closed ++ rest).head? ≠ some ' ') ∧
      (closed = false → rest = [])))

instance : (ps : List Piece) → Decidable (Sound ps)
  | [] => inferInstanceAs (Decidable True)
  | p :: ps =>
    have : Decidable (Sound ps) := instDecidableSound ps
    inferInstanceAs (Decidable (p.Fits (source ps) ∧ Sound ps))

/-- The tokens of the pieces, the first of which stands at the location. -/
def tokens : Location → List Piece → List Token
  | _, [] => []
  | l, p :: ps => (p.lexeme?.map (⟨l, ·⟩)).toList ++ tokens (l.advance p.text) ps

end Piece

namespace Cursor

open Piece

variable {c : Cursor} {rest t : List Char} {l : Location}

/-! ## One piece -/

theorem tokens_congr {d : Cursor} (h : c.skipGap = d.skipGap) : c.tokens = d.tokens := by
  have hn : c.nextToken? = d.nextToken? := by
    unfold nextToken?
    rw [h]
  rw [tokens_of_nextToken?, hn, ← tokens_of_nextToken?]

theorem takeWhile_append {p : Char → Bool} (ht : ∀ c ∈ t, p c = true)
    (hr : ∀ c ∈ rest.head?, p c = false) : (t ++ rest).takeWhile p = t := by
  rw [List.takeWhile_append_of_pos ht]
  cases rest with
  | nil => simp
  | cons c rest => simp [hr c rfl]

theorem dropWhile_append {p : Char → Bool} (ht : ∀ c ∈ t, p c = true)
    (hr : ∀ c ∈ rest.head?, p c = false) :
    dropWhile p ⟨t ++ rest, l⟩ = ⟨rest, l.advance t⟩ := by
  have hrest : rest.dropWhile p = rest := by
    cases rest with
    | nil => rfl
    | cons c rest => simp [hr c rfl]
  simp only [dropWhile, takeWhile_append ht hr, List.dropWhile_append_of_pos ht, hrest]

theorem skipGap_line (rest : List Char) (l : Location) :
    skipGap ⟨'\\' :: rest, l⟩ = (skipLine rest (l.after '\\')).skipGap := by
  have hd : dropWhile isBlank ⟨'\\' :: rest, l⟩ = ⟨'\\' :: rest, l⟩ :=
    dropWhile_append (t := []) (by simp) (by simp [isBlank])
  have hlt : (skipLine rest (l.after '\\')).rest.length < rest.length + 1 :=
    Nat.lt_succ_of_le (length_dropWhile_le _ _)
  rw [← skipGapWithin_eq (Nat.lt_succ_self _), skipGapWithin, hd]
  exact skipGapWithin_eq hlt

theorem skipGap_comment {b : Char} (hb : isBlank b = true) (rest : List Char) (l : Location) :
    skipGap ⟨'(' :: b :: rest, l⟩ = (skipComment 1 (b :: rest) (l.after '(')).skipGap := by
  have hd : dropWhile isBlank ⟨'(' :: b :: rest, l⟩ = ⟨'(' :: b :: rest, l⟩ :=
    dropWhile_append (t := []) (by simp) (by simp [isBlank])
  have hlt : (skipComment 1 (b :: rest) (l.after '(')).rest.length < (b :: rest).length + 1 :=
    Nat.lt_succ_of_le (length_skipComment_le ..)
  rw [← skipGapWithin_eq (Nat.lt_succ_self _), skipGapWithin, hd]
  exact (if_pos hb).trans (skipGapWithin_eq hlt)

/-- There is no gap where neither a blank nor a comment begins. -/
theorem skipGap_eq_self (hfirst : ∀ a ∈ c.rest.head?, isBlank a = false ∧ a ≠ '\\')
    (hcomment : ∀ b tail, c.rest = '(' :: b :: tail → isBlank b = false) : c.skipGap = c := by
  have hd : dropWhile isBlank c = c :=
    dropWhile_append (t := []) (by simp) fun a ha => (hfirst a ha).1
  rw [← skipGapWithin_eq (Nat.lt_succ_self _), skipGapWithin, hd]
  split
  · rename_i h
    exact ((hfirst '\\' (by rw [h]; rfl)).2 rfl).elim
  · rename_i h
    rw [hcomment _ _ h, if_neg Bool.false_ne_true]
  · rfl

theorem skipComment_append (depth : Nat) (t rest : List Char) (l : Location) {d : Nat}
    (h : depth? depth t = some d) :
    skipComment depth (t ++ rest) l = skipComment d rest (l.advance t) := by
  fun_induction depth? depth t generalizing l with
  | case1 depth =>
    cases h
    rfl
  | case2 depth t ih =>
    simp only [List.cons_append, skipComment, if_true]
    exact ih _ h
  | case3 => cases h
  | case4 depth t hne hle ih =>
    simp only [List.cons_append, skipComment, if_neg hne, if_true, if_neg hle]
    exact ih _ h
  | case5 depth c t hopen hclose ih =>
    simp only [List.cons_append, skipComment, if_neg hopen, if_neg hclose]
    exact ih _ h

/-- What stands up to a blank is read as one word. -/
theorem nextToken?_word (hgap : skipGap ⟨t ++ rest, l⟩ = ⟨t ++ rest, l⟩) (hne : t ≠ [])
    (hblank : ∀ c ∈ t, isBlank c = false) (hends : EndsWord rest) :
    nextToken? ⟨t ++ rest, l⟩ =
      some (⟨l, (lexeme (String.ofList t) ⟨rest, l.advance t⟩).1⟩,
        (lexeme (String.ofList t) ⟨rest, l.advance t⟩).2) := by
  obtain ⟨first, tail, rfl⟩ := List.exists_cons_of_ne_nil hne
  have htail : ∀ c ∈ tail, (!isBlank c) = true := fun c hc => by
    rw [hblank c (List.mem_cons_of_mem _ hc)]
    rfl
  have hrest : ∀ c ∈ rest.head?, (!isBlank c) = false := fun c hc => by
    rw [hends c hc]
    rfl
  have hbehind : dropWhile (!isBlank ·) ⟨tail ++ rest, l.after first⟩ =
      ⟨rest, l.advance (first :: tail)⟩ := dropWhile_append htail hrest
  have hword : (tail ++ rest).takeWhile (!isBlank ·) = tail := takeWhile_append htail hrest
  unfold nextToken?
  rw [hgap]
  simp only [List.cons_append, hword]
  rw [hbehind]

/-! ## Texts of pieces -/

theorem skipGap_of_comment {closed : Bool} (h : Piece.Fits rest (.comment t closed)) :
    skipGap ⟨(Piece.comment t closed).text ++ rest, l⟩ =
      skipGap ⟨rest, l.advance (Piece.comment t closed).text⟩ := by
  obtain ⟨⟨b, hb, hblank⟩, hdepth⟩ := h
  obtain ⟨tail, rfl⟩ : ∃ tail, t = b :: tail := by
    cases t with
    | nil => cases hb
    | cons b' tail => exact ⟨tail, by rw [Option.some.inj hb]⟩
  refine (skipGap_comment hblank _ l).trans (congrArg skipGap ?_)
  cases closed with
  | true =>
    rw [if_pos rfl] at hdepth
    show skipComment 1 (b :: tail ++ [')'] ++ rest) _ = ⟨rest, (l.after '(').advance _⟩
    rw [List.append_assoc, skipComment_append 1 _ _ _ hdepth, Location.advance_append]
    simp [skipComment]
  | false =>
    obtain ⟨hdepth, rfl⟩ := hdepth
    obtain ⟨d, hd⟩ := Option.isSome_iff_exists.1 hdepth
    show skipComment 1 (b :: tail ++ [] ++ []) _ = ⟨[], (l.after '(').advance (b :: tail ++ [])⟩
    rw [List.append_nil, skipComment_append 1 _ _ _ hd, List.append_nil]
    rfl

theorem skipGap_of_line (h : Piece.Fits rest (.line t)) :
    skipGap ⟨(Piece.line t).text ++ rest, l⟩ =
      skipGap ⟨rest, l.advance (Piece.line t).text⟩ := by
  refine (skipGap_line (t ++ rest) l).trans (congrArg skipGap ?_)
  refine dropWhile_append (fun c hc => ?_) fun c hc => ?_
  · rw [bne_iff_ne]
    rintro rfl
    exact h.1 hc
  · rw [h.2 c hc]
    rfl

theorem skipGap_of_endsWord (ht : Spelled t) (hends : EndsWord rest) :
    skipGap ⟨t ++ rest, l⟩ = ⟨t ++ rest, l⟩ := by
  obtain ⟨first, tail, rfl⟩ := List.exists_cons_of_ne_nil ht.ne_nil
  refine skipGap_eq_self (fun a ha => ?_) fun b more hb => ?_
  · obtain rfl : first = a := Option.some.inj ha
    exact ⟨ht.blanks first List.mem_cons_self, fun h => ht.head (congrArg some h)⟩
  · cases tail with
    | nil =>
      cases hb
      exact (ht.comment rfl).elim
    | cons b' tail =>
      cases hb
      exact ht.blanks _ (by simp)

theorem nextToken?_of_word (h : Piece.Fits rest (.word t)) :
    nextToken? ⟨t ++ rest, l⟩ =
      some (⟨l, lexemeOfWord (String.ofList t)⟩, ⟨rest, l.advance t⟩) := by
  obtain ⟨ht, hform, hends⟩ := h
  have hlexeme (behind : Cursor) :
      lexeme (String.ofList t) behind = (lexemeOfWord (String.ofList t), behind) := by
    rw [lexeme, hform, lexemeOfWord]
    cases Number.read? (String.ofList t) <;> rfl
  rcases ht with ht | ⟨rfl, rfl⟩
  · rw [nextToken?_word (skipGap_of_endsWord ht hends) ht.ne_nil ht.blanks hends, hlexeme]
  · rw [nextToken?_word (skipGap_eq_self (by simp [isBlank]) (by simp)) (by simp)
      (by simp [isBlank]) hends, hlexeme]

theorem dropSpace_body {form : StringForm} {space closed : Bool}
    (hspace : space = false → (body form space t closed ++ rest).head? ≠ some ' ') :
    dropSpace ⟨body form space t closed ++ rest, l⟩ =
      ⟨t ++ ((if closed then [form.closing] else []) ++ rest),
        l.advance (if space then [' '] else [])⟩ := by
  cases space with
  | true => simp [dropSpace, body]
  | false =>
    have hbody : body form false t closed ++ rest =
        t ++ ((if closed then [form.closing] else []) ++ rest) := by simp [body]
    rw [hbody] at hspace ⊢
    unfold dropSpace
    split
    · rename_i h
      exact (hspace rfl (congrArg List.head? h)).elim
    · rfl

/-- What follows the opening word of a literal is its text, and the closing character. -/
theorem stringBody_body {form : StringForm} {space closed : Bool} (hclosing : form.closing ∉ t)
    (hspace : space = false → (body form space t closed ++ rest).head? ≠ some ' ')
    (hrest : closed = false → rest = []) :
    stringBody form ⟨body form space t closed ++ rest, l⟩ =
      (String.ofList t, ⟨rest, l.advance (body form space t closed)⟩) := by
  have htext : ∀ c ∈ t, (c != form.closing) = true := by
    intro c hc
    rw [bne_iff_ne]
    rintro rfl
    exact hclosing hc
  have hstops : ∀ c ∈ ((if closed then [form.closing] else []) ++ rest).head?,
      (c != form.closing) = false := by
    intro c hc
    cases closed with
    | true =>
      obtain rfl : form.closing = c := Option.some.inj hc
      exact bne_self_eq_false _
    | false =>
      rw [hrest rfl] at hc
      cases hc
  unfold stringBody
  rw [dropSpace_body hspace]
  dsimp only
  rw [dropWhile_append htext hstops, takeWhile_append htext hstops]
  refine Prod.ext rfl ?_
  rw [body, Location.advance_append, Location.advance_append]
  cases closed with
  | true => rfl
  | false =>
    rw [hrest rfl]
    rfl

theorem nextToken?_of_literal {form : StringForm} {opening : List Char} {space closed : Bool}
    (h : Piece.Fits rest (.literal form opening space t closed)) :
    nextToken? ⟨(Piece.literal form opening space t closed).text ++ rest, l⟩ =
      some (⟨l, .string form (String.ofList t)⟩,
        ⟨rest, l.advance (Piece.literal form opening space t closed).text⟩) := by
  obtain ⟨hopening, hform, hclosing, hends, hspace, hrest⟩ := h
  rw [Piece.text, List.append_assoc, nextToken?_word (skipGap_of_endsWord hopening hends)
    hopening.ne_nil hopening.blanks hends, lexeme, hform, Location.advance_append]
  simp only [stringBody_body hclosing hspace hrest]

/-- Blanks and comments belong to a gap. -/
theorem skipGap_of_gap {p : Piece} (h : p.Fits rest) (hp : p.lexeme? = none) :
    skipGap ⟨p.text ++ rest, l⟩ = skipGap ⟨rest, l.advance p.text⟩ := by
  cases p with
  | blank c => exact skipGap_blank h
  | line t => exact skipGap_of_line h
  | comment t closed => exact skipGap_of_comment h
  | word t | literal form opening space t closed => cases hp

/-- Words and literals are read where they begin, up to their end. -/
theorem nextToken?_of_lexeme {p : Piece} {x : Lexeme} (h : p.Fits rest) (hp : p.lexeme? = some x) :
    nextToken? ⟨p.text ++ rest, l⟩ = some (⟨l, x⟩, ⟨rest, l.advance p.text⟩) := by
  cases p with
  | blank c | line t | comment t closed => cases hp
  | word t =>
    cases hp
    exact nextToken?_of_word h
  | literal form opening space t closed =>
    cases hp
    exact nextToken?_of_literal h

/-- The tokens of a text are those of its pieces, each where its piece begins. -/
theorem tokens_of_sound {ps : List Piece} (h : Sound ps) (l : Location) :
    (tokens ⟨source ps, l⟩).map (·.1) = Piece.tokens l ps := by
  induction ps generalizing l with
  | nil => simp [Piece.tokens]
  | cons p ps ih =>
    obtain ⟨hp, hps⟩ := h
    have hrest := ih hps (l.advance p.text)
    rw [source_cons, Piece.tokens, ← hrest]
    cases hx : p.lexeme? with
    | none =>
      rw [tokens_congr (skipGap_of_gap hp hx)]
      rfl
    | some x =>
      rw [tokens_of_nextToken?, nextToken?_of_lexeme hp hx]
      rfl

end Cursor

namespace Piece

/-! ## Every text has pieces -/

/-- A comment that is open somewhere is closed behind it, or never. -/
theorem depth?_or_closes {depth : Nat} (hd : 1 ≤ depth) (cs : List Char) :
    (depth? depth cs).isSome ∨ ∃ t rest, cs = t ++ ')' :: rest ∧ depth? depth t = some 1 := by
  fun_induction depth? depth cs with
  | case1 depth => exact .inl rfl
  | case2 depth cs ih =>
    obtain h | ⟨t, rest, rfl, h⟩ := ih (by omega)
    · exact .inl h
    · exact .inr ⟨'(' :: t, rest, rfl, by simpa [depth?] using h⟩
  | case3 depth cs hne hle =>
    obtain rfl : depth = 1 := by omega
    exact .inr ⟨[], cs, rfl, rfl⟩
  | case4 depth cs hle hne ih =>
    obtain h | ⟨t, rest, rfl, h⟩ := ih (by omega)
    · exact .inl h
    · exact .inr ⟨')' :: t, rest, rfl, by simpa [depth?, Nat.lt_of_not_le hle] using h⟩
  | case5 depth c cs hopen hclose ih =>
    obtain h | ⟨t, rest, rfl, h⟩ := ih hd
    · exact .inl h
    · exact .inr ⟨c :: t, rest, rfl, by simpa [depth?, hopen, hclose] using h⟩

theorem head?_dropWhile {p : Char → Bool} {cs : List Char} :
    ∀ c ∈ (cs.dropWhile p).head?, p c = false := by
  intro c hc
  have := List.head?_dropWhile_not p cs
  rw [hc] at this
  simpa using this

theorem exists_line (cs : List Char) :
    ∃ t rest, cs = t ++ rest ∧ Fits rest (.line t) := by
  refine ⟨cs.takeWhile (· != '\n'), cs.dropWhile (· != '\n'),
    (List.takeWhile_append_dropWhile ..).symm, fun h => ?_, fun c hc => ?_⟩
  · simpa using List.all_eq_true.1 List.all_takeWhile _ h
  · simpa using head?_dropWhile c hc

theorem exists_comment {b : Char} (hb : isBlank b = true) (cs : List Char) :
    ∃ t closed rest, '(' :: b :: cs = (comment t closed).text ++ rest ∧
      Fits rest (.comment t closed) := by
  obtain h | ⟨t, rest, heq, h⟩ := depth?_or_closes (Nat.le_refl 1) (b :: cs)
  · exact ⟨b :: cs, false, [], by simp [text], ⟨b, rfl, hb⟩, h, rfl⟩
  · refine ⟨t, true, rest, by simp [text, heq], ?_, h⟩
    cases t with
    | nil =>
      cases heq
      cases hb
    | cons b' t =>
      cases heq
      exact ⟨b, rfl, hb⟩

/-- What follows the opening word of a literal is its text, and perhaps what closes it. -/
theorem exists_body (form : StringForm) (cs : List Char) :
    ∃ space t closed rest, cs = body form space t closed ++ rest ∧ form.closing ∉ t ∧
      (space = false → cs.head? ≠ some ' ') ∧ (closed = false → rest = []) := by
  obtain ⟨space, inner, heq, hspace⟩ : ∃ space inner,
      cs = (if space then [' '] else []) ++ inner ∧ (space = false → cs.head? ≠ some ' ') := by
    by_cases h : cs.head? = some ' '
    · obtain ⟨inner, rfl⟩ := List.head?_eq_some_iff.1 h
      exact ⟨true, inner, rfl, nofun⟩
    · exact ⟨false, cs, rfl, fun _ => h⟩
  have hclosing : form.closing ∉ inner.takeWhile (· != form.closing) := fun h => by
    simpa using List.all_eq_true.1 List.all_takeWhile _ h
  have hinner := List.takeWhile_append_dropWhile (p := (· != form.closing)) (l := inner)
  cases hd : inner.dropWhile (· != form.closing) with
  | nil =>
    refine ⟨space, _, false, [], ?_, hclosing, hspace, fun _ => rfl⟩
    rw [hd, List.append_nil] at hinner
    rw [hinner, heq]
    simp [body]
  | cons c rest =>
    obtain rfl : c = form.closing := by simpa using head?_dropWhile c (congrArg List.head? hd)
    refine ⟨space, _, true, rest, ?_, hclosing, hspace, nofun⟩
    rw [heq, body, if_pos rfl, List.append_assoc, List.append_assoc, List.singleton_append, ← hd,
      hinner]

/-- A text that begins neither with a blank nor with a comment begins with a word or a literal. -/
theorem exists_word {a : Char} {cs : List Char} (ha : isBlank a = false) (hline : a ≠ '\\')
    (hcomment : ∀ b tail, a :: cs = '(' :: b :: tail → isBlank b = false) :
    ∃ p rest, a :: cs = p.text ++ rest ∧ Fits rest p ∧ p.text ≠ [] := by
  have hsplit : a :: cs = a :: cs.takeWhile (!isBlank ·) ++ cs.dropWhile (!isBlank ·) := by
    rw [List.cons_append, List.takeWhile_append_dropWhile]
  have hends : EndsWord (cs.dropWhile (!isBlank ·)) := fun c hc => by
    simpa using head?_dropWhile c hc
  have hblanks : ∀ c ∈ a :: cs.takeWhile (!isBlank ·), isBlank c = false := by
    intro c hc
    rcases List.mem_cons.1 hc with rfl | hc
    · exact ha
    · simpa using List.all_eq_true.1 List.all_takeWhile c hc
  have hhead : (a :: cs.takeWhile (!isBlank ·)).head? ≠ some '\\' := by simpa using hline
  cases hform : StringForm.ofWord? (String.ofList (a :: cs.takeWhile (!isBlank ·))) with
  | none =>
    refine ⟨.word _, _, hsplit, ⟨?_, hform, hends⟩, by simp [text]⟩
    by_cases hparen : a :: cs.takeWhile (!isBlank ·) = ['(']
    · refine .inr ⟨hparen, ?_⟩
      -- A blank behind it would make it a comment.
      cases hrest : cs.dropWhile (!isBlank ·) with
      | nil => rfl
      | cons b tail =>
        have hb := hends b (congrArg List.head? hrest)
        rw [hparen, hrest] at hsplit
        rw [hcomment b tail hsplit] at hb
        cases hb
    · exact .inl ⟨by simp, hblanks, hhead, hparen⟩
  | some form =>
    obtain ⟨space, t, closed, rest, heq, hclosing, hspace, hrest⟩ :=
      exists_body form (cs.dropWhile (!isBlank ·))
    have hparen : a :: cs.takeWhile (!isBlank ·) ≠ ['('] := by
      intro h
      rw [h] at hform
      revert hform
      cases form <;> decide +kernel
    refine ⟨.literal form _ space t closed, rest, ?_, ⟨⟨by simp, hblanks, hhead, hparen⟩,
      hform, hclosing, heq ▸ hends, heq ▸ hspace, hrest⟩, by simp [text]⟩
    rw [hsplit, heq, text, List.append_assoc]

/-- The piece that a text begins with. -/
theorem exists_fits (a : Char) (cs : List Char) :
    ∃ (p : Piece) (rest : List Char), a :: cs = p.text ++ rest ∧ p.Fits rest ∧ p.text ≠ [] := by
  by_cases ha : isBlank a = true
  · exact ⟨.blank a, cs, rfl, ha, by simp [text]⟩
  · by_cases hline : a = '\\'
    · obtain ⟨t, rest, rfl, ht⟩ := exists_line cs
      exact ⟨.line t, rest, by simp [text, hline], ht, by simp [text]⟩
    · by_cases hcomment : ∃ b tail, a :: cs = '(' :: b :: tail ∧ isBlank b = true
      · obtain ⟨b, tail, heq, hb⟩ := hcomment
        obtain ⟨t, closed, rest, htext, ht⟩ := exists_comment hb tail
        exact ⟨.comment t closed, rest, heq.trans htext, ht, by simp [text]⟩
      · refine exists_word (Bool.eq_false_iff.2 ha) hline fun b tail heq => ?_
        exact Bool.eq_false_iff.2 fun hb => hcomment ⟨b, tail, heq, hb⟩

/-- Every text has pieces. -/
theorem exists_sound (cs : List Char) : ∃ ps, Sound ps ∧ source ps = cs := by
  induction hn : cs.length using Nat.strongRecOn generalizing cs with
  | ind n ih =>
    cases cs with
    | nil => exact ⟨[], trivial, rfl⟩
    | cons a cs =>
      obtain ⟨p, rest, heq, hp, hne⟩ := exists_fits a cs
      have hlt : rest.length < n := by
        have := congrArg List.length heq
        have := List.length_pos_iff.2 hne
        rw [List.length_append] at *
        omega
      obtain ⟨ps, hps, rfl⟩ := ih _ hlt rest rfl
      exact ⟨p :: ps, ⟨hp, hps⟩, heq.symm⟩

theorem map_lexeme_tokens (ps : List Piece) (l : Location) :
    (tokens l ps).map (·.lexeme) = ps.filterMap lexeme? := by
  induction ps generalizing l with
  | nil => rfl
  | cons p ps ih =>
    rw [tokens, List.map_append, ih, List.filterMap_cons]
    cases p.lexeme? <;> rfl

end Piece

/-- The tokens of a source are those of its pieces. -/
theorem Token.ofSource_of_sound {ps : List Piece} {source : String} (h : Piece.Sound ps)
    (hs : Piece.source ps = source.toList) (path : String) :
    Token.ofSource path source = Piece.tokens (.start path) ps := by
  rw [Token.ofSource, Cursor.ofSource, ← hs]
  exact Cursor.tokens_of_sound h _

end StackLang
