import StackLang.Pending

/-!
# Reading with a bound

Reading a source never takes more turns than the source has characters.  With a bound on the turns
the same reading recurs on a number, so that it can be evaluated.

* `tokensWithin_eq`: a bound that exceeds the length of the source does not show.
-/

namespace StackLang

namespace Cursor

/-- The place behind a gap of at most `turns` comments. -/
def skipGapWithin : (turns : Nat) → Cursor → Cursor
  | 0, c => c
  | turns + 1, c =>
    let d := c.dropWhile isBlank
    match d.rest with
    | '\\' :: rest => skipGapWithin turns (skipLine rest (d.location.after '\\'))
    | '(' :: b :: rest =>
      if isBlank b then
        skipGapWithin turns (skipComment 1 (b :: rest) (d.location.after '('))
      else d
    | _ => d

theorem skipGapWithin_eq {turns : Nat} {c : Cursor} (h : c.rest.length < turns) :
    skipGapWithin turns c = c.skipGap := by
  fun_induction skipGap c generalizing turns with
  | case1 c d rest hd hlt =>
    rename_i ih
    obtain _ | turns := turns
    · omega
    · simp only [skipGapWithin, show (dropWhile isBlank c).rest = _ from hd]
      exact ih (by omega)
  | case2 c d b rest hd hb =>
    rename_i hlt ih
    obtain _ | turns := turns
    · omega
    · simp only [skipGapWithin, show (dropWhile isBlank c).rest = _ from hd, hb, if_true]
      exact ih (by omega)
  | case3 c d b rest hd =>
    rename_i hb
    obtain _ | turns := turns
    · omega
    · simp only [skipGapWithin, show (dropWhile isBlank c).rest = _ from hd, hb]
      rfl
  | case4 c d hline =>
    rename_i hcomment
    obtain _ | turns := turns
    · omega
    · unfold skipGapWithin
      dsimp only
      split
      · rename_i hd
        exact (hline _ hd).elim
      · rename_i hd
        exact (hcomment _ _ hd).elim
      · rfl

/-- The next token, behind a gap of at most `turns` comments. -/
def nextTokenWithin? (turns : Nat) (c : Cursor) : Option (Token × Cursor) :=
  let d := skipGapWithin turns c
  match d.rest with
  | [] => none
  | first :: rest =>
    let word := String.ofList (first :: rest.takeWhile (!isBlank ·))
    let behind := dropWhile (!isBlank ·) ⟨rest, d.location.after first⟩
    some (⟨d.location, (lexeme word behind).1⟩, (lexeme word behind).2)

theorem nextTokenWithin?_eq {turns : Nat} {c : Cursor} (h : c.rest.length < turns) :
    nextTokenWithin? turns c = c.nextToken? := by
  unfold nextTokenWithin?
  rw [skipGapWithin_eq h]
  rfl

/-- At most `turns` tokens, each behind a gap of at most so many comments. -/
def tokensWithin : (turns : Nat) → Cursor → List (Token × Cursor)
  | 0, _ => []
  | turns + 1, c =>
    match nextTokenWithin? (turns + 1) c with
    | none => []
    | some (t, d) => (t, d) :: tokensWithin turns d

theorem tokensWithin_eq {turns : Nat} {c : Cursor} (h : c.rest.length < turns) :
    tokensWithin turns c = c.tokens := by
  induction turns generalizing c with
  | zero => omega
  | succ turns ih =>
    unfold tokensWithin
    rw [tokens, nextTokenWithin?_eq h]
    split
    · rename_i hn
      split
      · rfl
      · rename_i hs
        rw [hn] at hs
        cases hs
    · rename_i t d hn
      have hlt := length_lt_of_nextToken? hn
      split
      · rename_i hs
        rw [hn] at hs
        cases hs
      · rename_i t' d' hs
        rw [hn] at hs
        cases hs
        rw [ih (by omega)]

end Cursor

/-- The tokens of a source with fewer than `turns` characters. -/
theorem Token.ofSource_eq (turns : Nat) {source : String} (h : source.toList.length < turns)
    (path : String) :
    Token.ofSource path source =
      (Cursor.tokensWithin turns (Cursor.ofSource path source)).map (·.1) := by
  rw [Cursor.tokensWithin_eq h]
  rfl

theorem Pending.ofSource_eq (turns : Nat) {source : String} (h : source.toList.length < turns)
    (path : String) :
    Pending.ofSource path source =
      ⟨(Cursor.tokensWithin turns (Cursor.ofSource path source)).map (·.1), none⟩ :=
  congrArg (Pending.mk · none) (Token.ofSource_eq turns h path)

end StackLang
