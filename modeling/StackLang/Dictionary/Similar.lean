import StackLang.Dictionary

/-!
# Similar names

The names to suggest for one that the dictionary does not know.  Two names are as similar as few
characters have to be inserted, deleted or replaced to turn one into the other, in proportion to
the longer name.  The number of edits comes from a table that is filled row by row.

* `length_editRow`: a row has one entry more than the second name has characters.
-/

namespace StackLang

/-- The rest of a row of the table, for one more character `a` of the first name: `left` is the
entry before it, the list holds the row above from the entry diagonally before it on. -/
def editCells (a : Char) : List Char → (above : List Nat) → (left : Nat) → List Nat
  | b :: bs, diagonal :: up :: above, left =>
    let cell := min (min (diagonal + if a = b then 0 else 1) (up + 1)) (left + 1)
    cell :: editCells a bs (up :: above) cell
  | _, _, _ => []

/-- The row of the table below `above`. -/
def editRow (bs : List Char) (above : List Nat) (a : Char) : List Nat :=
  match above with
  | [] => []
  | first :: rest => (first + 1) :: editCells a bs (first :: rest) (first + 1)

/-- The least number of insertions, deletions and replacements of a character that turn one text
into the other. -/
def editDistance (as bs : List Char) : Nat :=
  (as.foldl (editRow bs) (List.range (bs.length + 1))).getLastD 0

theorem length_editRow (bs : List Char) (above : List Nat) (a : Char)
    (h : above.length = bs.length + 1) : (editRow bs above a).length = bs.length + 1 := by
  have cells (bs : List Char) (above : List Nat) (left : Nat)
      (h : above.length = bs.length + 1) : (editCells a bs above left).length = bs.length := by
    induction bs generalizing above left with
    | nil => simp [editCells]
    | cons b bs ih =>
      match above, h with
      | diagonal :: up :: above, h =>
        simp only [editCells, List.length_cons] at h ⊢
        rw [ih (up :: above) _ (by simpa using h)]
  match above, h with
  | first :: rest, h => simp [editRow, cells bs (first :: rest) _ h]

/-- A name with its number of edits and the length that they are measured by. -/
structure Candidate where
  name : String
  edits : Nat
  length : Nat

namespace Candidate

def ofName (target name : String) : Candidate :=
  ⟨name, editDistance target.toList name.toList, max target.length name.length⟩

/-- At most two edits to five characters count as similar. -/
def isClose (c : Candidate) : Bool :=
  5 * c.edits ≤ 2 * c.length

/-- Fewer edits in proportion come first, and names with as many in their own order. -/
def before (c d : Candidate) : Bool :=
  c.edits * d.length < d.edits * c.length ||
    (c.edits * d.length == d.edits * c.length && c.name ≤ d.name)

end Candidate

/-- The names to suggest for an unknown one, at most three, the most similar first.  A name that
begins with the unknown one is always similar. -/
def Dictionary.suggest (d : Dictionary) (name : String) : List String :=
  let target := Text.uppercase name
  if target = "" then []
  else
    let candidates := (d.names.filter (· != target)).map (Candidate.ofName target)
    let similar := candidates.filter fun c => c.isClose || target.isPrefixOf c.name
    ((similar.mergeSort Candidate.before).take 3).map (·.name)

end StackLang
