/-!
# Lines

A line ends in a line feed, which may have a carriage return before it.  What follows the last line
feed is a line as well, unless it is empty.

* `flatten_terminated`: the pieces that end in a line feed lose nothing of the text.
* `length_terminated`: every line feed ends a piece, and the last piece may have none.
-/

namespace StackLang.Text

/-- The pieces of a text that each end in a line feed; only the last may go without one. -/
def terminated : List Char → List (List Char)
  | [] => []
  | c :: rest =>
    if c = '\n' then [c] :: terminated rest
    else match terminated rest with
      | [] => [[c]]
      | piece :: pieces => (c :: piece) :: pieces

/-- A piece without the line feed, or the carriage return and line feed, that ends it. -/
def dropLineEnd (piece : List Char) : List Char :=
  match piece.reverse with
  | '\n' :: '\r' :: rest => rest.reverse
  | '\n' :: rest => rest.reverse
  | _ => piece

/-- The lines of a text. -/
def lines (s : String) : List String :=
  (terminated s.toList).map fun piece => String.ofList (dropLineEnd piece)

theorem flatten_terminated (cs : List Char) : (terminated cs).flatten = cs := by
  induction cs with
  | nil => rfl
  | cons c rest ih =>
    rw [terminated]
    split
    · simp [ih]
    · split <;> simp_all

theorem terminated_eq_nil_iff {cs : List Char} : terminated cs = [] ↔ cs = [] := by
  cases cs with
  | nil => simp [terminated]
  | cons c rest =>
    rw [terminated]
    split
    · simp
    · split <;> simp

theorem length_terminated (cs : List Char) :
    (terminated cs).length =
      cs.count '\n' + if cs.getLast?.all (· = '\n') then 0 else 1 := by
  induction cs with
  | nil => rfl
  | cons c rest ih =>
    rw [terminated]
    by_cases hc : c = '\n'
    · cases rest <;> simp_all [terminated, List.getLast?_cons]
      omega
    · cases hrest : rest with
      | nil => simp [terminated, hc]
      | cons d tail =>
        rw [List.getLast?_cons_cons, List.count_cons_of_ne (by simpa using hc), ← hrest, ← ih,
          if_neg hc]
        split
        · simp_all [terminated_eq_nil_iff]
        · simp_all

end StackLang.Text
