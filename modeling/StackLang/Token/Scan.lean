import StackLang.Token

/-!
# From a source to its tokens

Between two tokens lies a gap of blanks and comments.  A comment runs from `\` to the end of the
line, or from `(` with a blank behind it to the matching `)`; an unclosed one runs to the end of the
source.  What follows a gap is read up to the next blank.  It may open a string literal, which
takes one space and everything up to its closing character; else it is a number or a word.

* `length_skipGap_le`: a gap is part of the rest of the source.
* `length_lt_of_nextToken?`: reading a token uses up at least one character.
-/

namespace StackLang

/-- The characters that separate tokens. -/
def isBlank (c : Char) : Bool :=
  c == ' ' || c == '\t' || c == '\r' || c == '\n'

namespace Cursor

/-- The place behind the comment that is `depth` parentheses deep at the start of the text. -/
def skipComment : (depth : Nat) → List Char → Location → Cursor
  | _, [], l => ⟨[], l⟩
  | depth, c :: rest, l =>
    if c = '(' then skipComment (depth + 1) rest (l.after c)
    else if c = ')' then
      if depth ≤ 1 then ⟨rest, l.after c⟩ else skipComment (depth - 1) rest (l.after c)
    else skipComment depth rest (l.after c)

theorem length_skipComment_le (depth : Nat) (cs : List Char) (l : Location) :
    (skipComment depth cs l).rest.length ≤ cs.length := by
  induction cs generalizing depth l with
  | nil => simp [skipComment]
  | cons c cs ih =>
    simp only [skipComment, List.length_cons]
    split
    · exact Nat.le_succ_of_le (ih _ _)
    · split
      · split
        · exact Nat.le_succ _
        · exact Nat.le_succ_of_le (ih _ _)
      · exact Nat.le_succ_of_le (ih _ _)

theorem length_dropWhile_le (p : Char → Bool) (c : Cursor) :
    (c.dropWhile p).rest.length ≤ c.rest.length := by
  simpa using (List.dropWhile_sublist p).length_le

/-- The place of the end of the line. -/
def skipLine (rest : List Char) (l : Location) : Cursor :=
  dropWhile (· != '\n') ⟨rest, l⟩

/-- A comment up to the end of the line is shorter than what begins with it. -/
theorem length_skipLine_lt {c : Cursor} {a : Char} {rest : List Char}
    (h : (c.dropWhile isBlank).rest = a :: rest) (l : Location) :
    (skipLine rest l).rest.length < c.rest.length := by
  have hd := length_dropWhile_le isBlank c
  have hr : (skipLine rest l).rest.length ≤ rest.length := length_dropWhile_le _ _
  rw [h, List.length_cons] at hd
  omega

/-- So is a comment in parentheses. -/
theorem length_skipComment_lt {c : Cursor} {a : Char} {rest : List Char}
    (h : (c.dropWhile isBlank).rest = a :: rest) (depth : Nat) (l : Location) :
    (skipComment depth rest l).rest.length < c.rest.length := by
  have hd := length_dropWhile_le isBlank c
  have hr := length_skipComment_le depth rest l
  rw [h, List.length_cons] at hd
  omega

/-- The place of the next token: the end of the gap that comes next. -/
def skipGap (c : Cursor) : Cursor :=
  let d := c.dropWhile isBlank
  match h : d.rest with
  | '\\' :: rest =>
    have := length_skipLine_lt h (d.location.after '\\')
    skipGap (skipLine rest (d.location.after '\\'))
  | '(' :: b :: rest =>
    if isBlank b then
      have := length_skipComment_lt h 1 (d.location.after '(')
      skipGap (skipComment 1 (b :: rest) (d.location.after '('))
    else d
  | _ => d
termination_by c.rest.length

theorem length_skipGap_le (c : Cursor) : c.skipGap.rest.length ≤ c.rest.length := by
  fun_induction skipGap c with
  | case1 c d rest h hlt ih => omega
  | case2 c d b rest h hb hlt ih => omega
  | case3 c d => exact length_dropWhile_le isBlank c
  | case4 c d => exact length_dropWhile_le isBlank c

/-- The place behind the one space that separates a string literal from its opening word. -/
def dropSpace (c : Cursor) : Cursor :=
  match c.rest with
  | ' ' :: rest => ⟨rest, c.location.after ' '⟩
  | _ => c

/-- The place behind the next character, or the end of the source. -/
def dropOne (c : Cursor) : Cursor :=
  match c.next? with
  | some (_, behind) => behind
  | none => c

/-- The body of a string literal whose opening word ends here, and the place behind it. -/
def stringBody (form : StringForm) (c : Cursor) : String × Cursor :=
  let body := c.dropSpace
  (String.ofList (body.rest.takeWhile (· != form.closing)),
    (body.dropWhile (· != form.closing)).dropOne)

theorem length_dropSpace_le (c : Cursor) : c.dropSpace.rest.length ≤ c.rest.length := by
  unfold dropSpace
  split <;> simp_all

theorem length_dropOne_le (c : Cursor) : c.dropOne.rest.length ≤ c.rest.length := by
  unfold dropOne
  split
  · rename_i h
    have := length_next? h
    omega
  · exact Nat.le_refl _

theorem length_stringBody_le (form : StringForm) (c : Cursor) :
    (c.stringBody form).2.rest.length ≤ c.rest.length :=
  Nat.le_trans (length_dropOne_le _)
    (Nat.le_trans (length_dropWhile_le _ _) (length_dropSpace_le c))

/-- The lexeme that a word begins, and the place behind it. -/
def lexeme (word : String) (behind : Cursor) : Lexeme × Cursor :=
  match StringForm.ofWord? word with
  | some form => (.string form (behind.stringBody form).1, (behind.stringBody form).2)
  | none => match Number.read? word with
    | some value => (.number value, behind)
    | none => (.word word, behind)

theorem length_lexeme_le (word : String) (c : Cursor) :
    (lexeme word c).2.rest.length ≤ c.rest.length := by
  unfold lexeme
  split
  · exact length_stringBody_le _ _
  · split <;> exact Nat.le_refl _

/-- The next token and the place behind it. -/
def nextToken? (c : Cursor) : Option (Token × Cursor) :=
  let d := c.skipGap
  match d.rest with
  | [] => none
  | first :: rest =>
    let word := String.ofList (first :: rest.takeWhile (!isBlank ·))
    let behind := dropWhile (!isBlank ·) ⟨rest, d.location.after first⟩
    some (⟨d.location, (lexeme word behind).1⟩, (lexeme word behind).2)

theorem length_lt_of_nextToken? {c d : Cursor} {t : Token} (h : c.nextToken? = some (t, d)) :
    d.rest.length < c.rest.length := by
  have hgap := length_skipGap_le c
  simp only [nextToken?] at h
  split at h
  · cases h
  · rename_i first rest hrest
    simp only [hrest, List.length_cons] at hgap
    cases h
    refine Nat.lt_of_le_of_lt (length_lexeme_le _ _) ?_
    exact Nat.lt_of_le_of_lt (length_dropWhile_le _ _) (by simp only; omega)

/-- The tokens from here on, each with the place behind it. -/
def tokens (c : Cursor) : List (Token × Cursor) :=
  match h : c.nextToken? with
  | none => []
  | some (t, d) =>
    have := length_lt_of_nextToken? h
    (t, d) :: d.tokens
termination_by c.rest.length

/-- The end of the source, as the place behind the last gap. -/
def finish (c : Cursor) : Cursor :=
  ((c.tokens.getLast?.map (·.2)).getD c).skipGap

end Cursor

/-- The tokens of a source. -/
def Token.ofSource (path source : String) : List Token :=
  (Cursor.ofSource path source).tokens.map (·.1)

end StackLang
