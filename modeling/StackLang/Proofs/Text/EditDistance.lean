import Mathlib.Order.Bounds.Defs
import StackLang.Dictionary.Similar

/-!
# Edit distance

The table of the number of edits is filled with the distances between prefixes of the two texts, so
its last entry is the distance of the texts: the least number of single characters that have to be
inserted, deleted or replaced, one after the other, to turn the one into the other.

* `Edit`, `Edits`: what an edit is, and what some edits make of a text.
* `distance`: the recursion that the table follows, on the first characters of the texts.
* `isLeast_distance`: it gives the least number of edits.
* `foldl_editRow`, `editDistance_eq`: each row holds distances, and so does the last entry.
* `Candidate.edits_isLeast`: the number of edits of a name to suggest.
-/

namespace StackLang.Text

/-- One character is inserted, deleted or replaced. -/
inductive Edit : List Char → List Char → Prop
  | insert (u v : List Char) (c : Char) : Edit (u ++ v) (u ++ c :: v)
  | delete (u v : List Char) (c : Char) : Edit (u ++ c :: v) (u ++ v)
  | replace (u v : List Char) (c d : Char) : Edit (u ++ c :: v) (u ++ d :: v)

/-- That many edits, one after the other, turn the one text into the other. -/
inductive Edits : Nat → List Char → List Char → Prop
  | none (s : List Char) : Edits 0 s s
  | more {n : Nat} {s t u : List Char} (h : Edit s t) (hs : Edits n t u) : Edits (n + 1) s u

variable {s t u v : List Char} {m n : Nat}

/-! ## Edits -/

theorem Edit.symm (h : Edit s t) : Edit t s := by
  cases h with
  | insert u v c => exact .delete u v c
  | delete u v c => exact .insert u v c
  | replace u v c d => exact .replace u v d c

/-- An edit in a longer text. -/
theorem Edit.cons (c : Char) (h : Edit s t) : Edit (c :: s) (c :: t) := by
  cases h with
  | insert u v d => exact .insert (c :: u) v d
  | delete u v d => exact .delete (c :: u) v d
  | replace u v d e => exact .replace (c :: u) v d e

theorem Edit.reverse (h : Edit s t) : Edit s.reverse t.reverse := by
  cases h with
  | insert u v c => simpa using Edit.insert v.reverse u.reverse c
  | delete u v c => simpa using Edit.delete v.reverse u.reverse c
  | replace u v c d => simpa using Edit.replace v.reverse u.reverse c d

namespace Edits

theorem trans (h : Edits m s t) (h' : Edits n t u) : Edits (m + n) s u := by
  induction h with
  | none => simpa using h'
  | @more k _ _ _ h _ ih =>
    rw [Nat.add_right_comm]
    exact .more h (ih h')

theorem symm (h : Edits n s t) : Edits n t s := by
  induction h with
  | none s => exact .none s
  | more h _ ih => exact ih.trans (.more h.symm (.none _))

theorem cons (c : Char) (h : Edits n s t) : Edits n (c :: s) (c :: t) := by
  induction h with
  | none s => exact .none _
  | more h _ ih => exact .more (h.cons c) ih

theorem reverse (h : Edits n s t) : Edits n s.reverse t.reverse := by
  induction h with
  | none s => exact .none _
  | more h _ ih => exact .more h.reverse ih

theorem eq_of_zero (h : Edits 0 s t) : s = t := by
  cases h
  rfl

/-- A text is made of nothing by inserting its characters. -/
theorem insertAll (s : List Char) : Edits s.length [] s := by
  induction s with
  | nil => exact .none []
  | cons c s ih => exact .more (.insert [] [] c) (ih.cons c)

end Edits

/-! ## The recursion -/

/-- The number of edits by recursion: the first character is replaced by that of the other text,
unless it is the same, or it is deleted, or that of the other text is inserted. -/
def distance : List Char → List Char → Nat
  | [], t => t.length
  | a :: s, [] => (a :: s).length
  | a :: s, b :: t =>
    min (min (distance s t + if a = b then 0 else 1) (distance s (b :: t) + 1))
      (distance (a :: s) t + 1)
termination_by s t => s.length + t.length

theorem distance_nil_left (t : List Char) : distance [] t = t.length := by
  rw [distance]

theorem distance_nil_right (s : List Char) : distance s [] = s.length := by
  cases s with
  | nil => rw [distance]
  | cons a s => rw [distance]

theorem distance_cons_cons (a b : Char) (s t : List Char) :
    distance (a :: s) (b :: t) =
      min (min (distance s t + if a = b then 0 else 1) (distance s (b :: t) + 1))
        (distance (a :: s) t + 1) := by
  rw [distance]

theorem distance_self (s : List Char) : distance s s = 0 := by
  induction s with
  | nil => exact distance_nil_left []
  | cons a s ih => simp [distance_cons_cons, ih]

theorem distance_le_max (s t : List Char) : distance s t ≤ max s.length t.length := by
  fun_induction distance s t with
  | case1 t => exact Nat.le_max_right _ _
  | case2 a s => exact Nat.le_max_left _ _
  | case3 a s b t diagonal up left =>
    simp only [List.length_cons]
    split <;> omega

/-- As many edits are enough. -/
theorem edits_distance (s t : List Char) : Edits (distance s t) s t := by
  fun_induction distance s t with
  | case1 t => exact .insertAll t
  | case2 a s => exact (Edits.insertAll (a :: s)).symm
  | case3 a s b t diagonal up left =>
    have replaced : Edits (distance s t + if a = b then 0 else 1) (a :: s) (b :: t) := by
      split
      · rename_i hab
        exact hab ▸ diagonal.cons a
      · exact .more (.replace [] s a b) (diagonal.cons b)
    have deleted : Edits (distance s (b :: t) + 1) (a :: s) (b :: t) := .more (.delete [] s a) up
    have inserted : Edits (distance (a :: s) t + 1) (a :: s) (b :: t) :=
      .more (.insert [] (a :: s) b) (left.cons b)
    rcases Nat.le_total (min (distance s t + if a = b then 0 else 1) (distance s (b :: t) + 1))
      (distance (a :: s) t + 1) with h | h
    · rw [Nat.min_eq_left h]
      rcases Nat.le_total (distance s t + if a = b then 0 else 1) (distance s (b :: t) + 1)
        with h | h
      · rwa [Nat.min_eq_left h]
      · rwa [Nat.min_eq_right h]
    · rwa [Nat.min_eq_right h]

/-! ## No fewer edits -/

/-- The second text can be shortened by its first character. -/
theorem distance_cons_right_le (s t : List Char) (b : Char) :
    distance s (b :: t) ≤ distance s t + 1 := by
  cases s with
  | nil => simp [distance_nil_left]
  | cons a s =>
    rw [distance_cons_cons]
    exact Nat.min_le_right _ _

theorem distance_cons_left_le (s t : List Char) (a : Char) :
    distance (a :: s) t ≤ distance s t + 1 := by
  cases t with
  | nil => simp [distance_nil_right]
  | cons b t =>
    rw [distance_cons_cons]
    omega

theorem distance_le_cons_left (s t : List Char) (a : Char) :
    distance s t ≤ distance (a :: s) t + 1 := by
  induction t with
  | nil =>
    simp only [distance_nil_right, List.length_cons]
    omega
  | cons b t ih =>
    have := distance_cons_right_le s t b
    rw [distance_cons_cons]
    omega

theorem distance_replace_le (s t : List Char) (a b : Char) :
    distance (a :: s) t ≤ distance (b :: s) t + 1 := by
  induction t with
  | nil => simp [distance_nil_right]
  | cons c t ih =>
    have hdiagonal : distance (a :: s) (c :: t) ≤ distance s t + 1 := by
      rw [distance_cons_cons]
      split <;> omega
    have hup := distance_cons_left_le s (c :: t) a
    have hleft := distance_cons_right_le (a :: s) t c
    rw [distance_cons_cons b]
    omega

/-- What two texts differ in by one at most, they do so behind another character. -/
theorem distance_cons_le_of_forall (h : ∀ v, distance s v ≤ distance t v + 1) (c : Char)
    (v : List Char) : distance (c :: s) v ≤ distance (c :: t) v + 1 := by
  induction v with
  | nil =>
    have := h []
    simp only [distance_nil_right, List.length_cons] at this ⊢
    omega
  | cons b v ih =>
    have hdiagonal := h v
    have hup := h (b :: v)
    rw [distance_cons_cons, distance_cons_cons]
    omega

/-- An edit changes the distance from any text by one at most. -/
theorem Edit.distance_le (h : Edit s t) (v : List Char) : distance s v ≤ distance t v + 1 := by
  have behind (u : List Char) {s t : List Char} (h : ∀ v, distance s v ≤ distance t v + 1) :
      ∀ v, distance (u ++ s) v ≤ distance (u ++ t) v + 1 := by
    induction u with
    | nil => exact h
    | cons c u ih => exact distance_cons_le_of_forall ih c
  cases h with
  | insert u w c => exact behind u (fun v => distance_le_cons_left w v c) v
  | delete u w c => exact behind u (fun v => distance_cons_left_le w v c) v
  | replace u w c d => exact behind u (fun v => distance_replace_le w v c d) v

theorem distance_le_of_edits (h : Edits n s t) : distance s t ≤ n := by
  induction h with
  | none s => exact Nat.le_of_eq (distance_self s)
  | @more n _ _ u h _ ih =>
    have := h.distance_le u
    omega

theorem isLeast_distance (s t : List Char) : IsLeast {n | Edits n s t} (distance s t) :=
  ⟨edits_distance s t, fun _ h => distance_le_of_edits h⟩

theorem distance_reverse (s t : List Char) : distance s.reverse t.reverse = distance s t := by
  refine Nat.le_antisymm (distance_le_of_edits (edits_distance s t).reverse) ?_
  have h := (edits_distance s.reverse t.reverse).reverse
  rw [List.reverse_reverse, List.reverse_reverse] at h
  exact distance_le_of_edits h

theorem distance_comm (s t : List Char) : distance s t = distance t s :=
  Nat.le_antisymm (distance_le_of_edits (edits_distance t s).symm)
    (distance_le_of_edits (edits_distance s t).symm)

theorem distance_eq_zero_iff : distance s t = 0 ↔ s = t := by
  constructor
  · intro h
    have hedits := edits_distance s t
    rw [h] at hedits
    exact hedits.eq_of_zero
  · rintro rfl
    exact distance_self s

theorem distance_triangle (s t u : List Char) : distance s u ≤ distance s t + distance t u :=
  distance_le_of_edits ((edits_distance s t).trans (edits_distance t u))

/-! ## The table -/

/-- The distances of a text from the prefixes of another one that reach at least as far as `t`, with
`bs` behind it.  The recursion is on the first characters and the table goes to the last ones, so
both texts are turned round. -/
def distances (s t : List Char) : (bs : List Char) → List Nat
  | [] => [distance s t]
  | b :: bs => distance s t :: distances s (b :: t) bs

theorem distances_eq_cons (s t bs : List Char) :
    distances s t bs = distance s t :: (distances s t bs).tail := by
  cases bs <;> rfl

/-- The first row holds the lengths of the prefixes. -/
theorem range'_eq_distances (t bs : List Char) :
    List.range' t.length (bs.length + 1) = distances [] t bs := by
  induction bs generalizing t with
  | nil => simp [distances, distance_nil_left]
  | cons b bs ih =>
    rw [List.length_cons, List.range'_succ, distances, distance_nil_left]
    exact congrArg _ (ih (b :: t))

/-- The entries of the row below one of distances, from the left. -/
theorem editCells_distances (a : Char) (s t bs : List Char) :
    editCells a bs (distances s t bs) (distance (a :: s) t) = (distances (a :: s) t bs).tail := by
  induction bs generalizing t with
  | nil => rfl
  | cons b bs ih =>
    have hcell : min (min (distance s t + if a = b then 0 else 1) (distance s (b :: t) + 1))
        (distance (a :: s) t + 1) = distance (a :: s) (b :: t) :=
      (distance_cons_cons a b s t).symm
    rw [distances, distances_eq_cons s (b :: t), editCells, hcell, ← distances_eq_cons s (b :: t),
      ih, ← distances_eq_cons]
    rfl

theorem editRow_distances (a : Char) (s bs : List Char) :
    editRow bs (distances s [] bs) a = distances (a :: s) [] bs := by
  have hfirst : distance s [] + 1 = distance (a :: s) [] := by
    rw [distance_nil_right, distance_nil_right, List.length_cons]
  rw [distances_eq_cons s, editRow, ← distances_eq_cons s, hfirst, editCells_distances,
    ← distances_eq_cons]

/-- When some characters have been taken, the row holds the distances of what they are. -/
theorem foldl_editRow (as s bs : List Char) :
    as.foldl (editRow bs) (distances s [] bs) = distances (as.reverse ++ s) [] bs := by
  induction as generalizing s with
  | nil => rfl
  | cons a as ih => rw [List.foldl_cons, editRow_distances, ih, List.reverse_cons,
      List.append_assoc, List.singleton_append]

theorem getLastD_distances (s t bs : List Char) (d : Nat) :
    (distances s t bs).getLastD d = distance s (bs.reverse ++ t) := by
  induction bs generalizing t d with
  | nil => rfl
  | cons b bs ih =>
    rw [distances, List.getLastD_cons, ih, List.reverse_cons, List.append_assoc,
      List.singleton_append]

theorem editDistance_eq (as bs : List Char) : editDistance as bs = distance as bs := by
  rw [editDistance, List.range_eq_range', show 0 = ([] : List Char).length from rfl,
    range'_eq_distances, foldl_editRow, List.append_nil, getLastD_distances, List.append_nil,
    distance_reverse]

end StackLang.Text

namespace StackLang

/-- The number of edits by which a name is measured is the least number of edits that turn the one
name into the other.  So it is the same in both directions, it is zero for a name and itself only, a
detour over a third name takes no fewer edits, and it is at most the length that it is divided by,
which is that of the longer name. -/
theorem Candidate.edits_isLeast (a b : String) :
    IsLeast {n | Text.Edits n a.toList b.toList} (ofName a b).edits ∧
      (ofName a b).edits = (ofName b a).edits ∧
      ((ofName a b).edits = 0 ↔ a = b) ∧
      (∀ c, (ofName a c).edits ≤ (ofName a b).edits + (ofName b c).edits) ∧
      (ofName a b).edits ≤ (ofName a b).length ∧
      (ofName a b).length = max a.length b.length := by
  have hedits (a b : String) : (ofName a b).edits = Text.distance a.toList b.toList :=
    Text.editDistance_eq a.toList b.toList
  refine ⟨?_, ?_, ?_, fun c => ?_, ?_, rfl⟩
  · rw [hedits]
    exact Text.isLeast_distance _ _
  · rw [hedits, hedits]
    exact Text.distance_comm _ _
  · rw [hedits, Text.distance_eq_zero_iff, String.toList_inj]
  · rw [hedits, hedits, hedits]
    exact Text.distance_triangle _ _ _
  · rw [hedits]
    exact Text.distance_le_max _ _

example : (Candidate.ofName "SWAP" "DROPS").edits = 4 := by decide

end StackLang
