import Mathlib.Data.List.Basic
import StackLang.Files.Tree

/-!
# Canonical paths

The canonical path of a place spells the names on the way from the root.  None of these names is a
detour, so the path leads to this place again, wherever it is taken from.

* `FileTree.proper_of_locate`: the names on the way to what a path leads to are no detours.
* `FileTree.names_pathOf`: the names in the path of such a place.
* `FileTree.eq_of_locate_pathOf`: where the path of such a place leads, if anywhere.
-/

namespace StackLang

/-- Can this be a name on the way from the root?  It takes part in a path as one name, and is not a
detour. -/
structure IsProper (name : String) : Prop where
  ne_empty : name ≠ ""
  slash : '/' ∉ name.toList
  ne_here : name ≠ "."
  ne_up : name ≠ ".."

/-- No piece of a split has the character at which it is split. -/
theorem not_mem_of_mem_splitOn {α : Type} [BEq α] [LawfulBEq α] {x : α} {xs piece : List α}
    (h : piece ∈ xs.splitOn x) : x ∉ piece := by
  induction xs generalizing piece with
  | nil =>
    rw [List.splitOn_nil, List.mem_singleton] at h
    exact h ▸ List.not_mem_nil
  | cons y xs ih =>
    rw [List.splitOn_cons_eq_if_modifyHead] at h
    split at h
    · rcases List.mem_cons.1 h with rfl | h
      · exact List.not_mem_nil
      · exact ih h
    · rename_i hne
      cases hxs : xs.splitOn x with
      | nil => exact absurd hxs (List.splitOn_ne_nil _ _)
      | cons first pieces =>
        rw [hxs, List.modifyHead_cons] at h
        rcases List.mem_cons.1 h with rfl | h
        · have hfirst : x ∉ first := ih (hxs ▸ List.mem_cons_self)
          have hxy : x ≠ y := fun heq => hne (beq_iff_eq.2 heq.symm)
          exact List.not_mem_cons_of_ne_of_not_mem hxy hfirst
        · exact ih (hxs ▸ List.mem_cons_of_mem _ h)

namespace FileTree

/-- A tree with a working directory that can be reached from the root. -/
def Proper (t : FileTree) : Prop :=
  ∀ name ∈ t.workingDirectory, IsProper name

variable {t : FileTree} {here place q : Place} {path name : String}

theorem mem_names (h : name ∈ names path) : name ≠ "" ∧ '/' ∉ name.toList := by
  obtain ⟨piece, hp, rfl⟩ := List.mem_map.1 h
  obtain ⟨hp, hne⟩ := List.mem_filter.1 hp
  refine ⟨fun hempty => of_decide_eq_true hne (by simpa using hempty), ?_⟩
  rw [String.toList_ofList]
  exact not_mem_of_mem_splitOn hp

/-! ## Single names -/

/-- A name that is no detour leads into the directory. -/
theorem enter_of_proper (hn : IsProper name) (h : t.enter here name = .ok q) :
    q = here ++ [name] := by
  unfold enter at h
  rw [if_neg hn.ne_here, if_neg hn.ne_up] at h
  split at h
  · split at h
    · cases h
    · split at h
      · cases h
        rfl
      · cases h
  · cases h
  · cases h

theorem proper_of_enter (hn : name ≠ "" ∧ '/' ∉ name.toList) (hhere : ∀ n ∈ here, IsProper n)
    (h : t.enter here name = .ok q) : ∀ n ∈ q, IsProper n := by
  by_cases hhere' : name = "."
  · subst hhere'
    unfold enter at h
    split at h
    · cases h
      exact hhere
    · cases h
    · cases h
  · by_cases hup : name = ".."
    · subst hup
      unfold enter at h
      split at h
      · cases h
        exact fun n hm => hhere n (List.dropLast_subset _ hm)
      · cases h
      · cases h
    · have hproper : IsProper name := ⟨hn.1, hn.2, hhere', hup⟩
      rw [enter_of_proper hproper h]
      exact List.forall_mem_append.2 ⟨hhere, List.forall_mem_singleton.2 hproper⟩

/-! ## Whole paths -/

theorem foldlM_enter (hn : ∀ n ∈ place, IsProper n) (h : place.foldlM t.enter here = .ok q) :
    q = here ++ place := by
  induction place generalizing here with
  | nil =>
    cases h
    rw [List.append_nil]
  | cons name place ih =>
    rw [List.foldlM_cons] at h
    cases hi : t.enter here name with
    | error problem =>
      rw [hi] at h
      cases h
    | ok there =>
      rw [hi] at h
      rw [ih (fun n hm => hn n (List.mem_cons_of_mem _ hm)) h,
        enter_of_proper (hn name List.mem_cons_self) hi, List.append_assoc, List.singleton_append]

theorem proper_of_foldlM {steps : List String} (hn : ∀ n ∈ steps, n ≠ "" ∧ '/' ∉ n.toList)
    (hhere : ∀ n ∈ here, IsProper n) (h : steps.foldlM t.enter here = .ok q) :
    ∀ n ∈ q, IsProper n := by
  induction steps generalizing here with
  | nil =>
    cases h
    exact hhere
  | cons name steps ih =>
    rw [List.foldlM_cons] at h
    cases hi : t.enter here name with
    | error problem =>
      rw [hi] at h
      cases h
    | ok there =>
      rw [hi] at h
      exact ih (fun n hm => hn n (List.mem_cons_of_mem _ hm))
        (proper_of_enter (hn name List.mem_cons_self) hhere hi) h

/-- Where a path leads, in terms of its steps. -/
theorem foldlM_of_locate (h : t.locate path = .ok q) :
    (names path ++ if endsInSlash path then ["."] else []).foldlM t.enter (t.start path) =
      .ok q := by
  unfold locate at h
  cases hc : checkPath path with
  | error problem =>
    rw [hc] at h
    cases h
  | ok _ =>
    rw [hc] at h
    exact h

/-- The names on the way to what a path leads to are no detours. -/
theorem proper_of_locate (ht : t.Proper) (h : t.locate path = .ok q) : ∀ n ∈ q, IsProper n := by
  refine proper_of_foldlM (fun n hn => ?_) ?_ (foldlM_of_locate h)
  · rcases List.mem_append.1 hn with hn | hn
    · exact mem_names hn
    · split at hn
      · obtain rfl := List.mem_singleton.1 hn
        decide
      · cases hn
  · unfold start
    split
    · nofun
    · exact ht

theorem isAbsolute_pathOf (place : Place) : isAbsolute (pathOf place) = true := by
  simp [isAbsolute, pathOf]

theorem names_pathOf (hn : ∀ n ∈ place, IsProper n) : names (pathOf place) = place := by
  have hpath : (pathOf place).toList =
      [] ++ '/' :: ['/'].intercalate (place.map String.toList) := by
    rw [pathOf, String.toList_append, String.toList_intercalate]
    rfl
  have hsplit : ((['/'].intercalate (place.map String.toList)).splitOn '/').filter (· ≠ []) =
      place.map String.toList := by
    by_cases hplace : place = []
    · subst hplace
      rfl
    · rw [List.splitOn_intercalate '/' (List.forall_mem_map.2 fun n hm => (hn n hm).slash)
        (by simpa using hplace), List.filter_eq_self]
      refine List.forall_mem_map.2 fun n hm => ?_
      simpa using (hn n hm).ne_empty
  rw [names, hpath, List.splitOn_append_cons_self_of_not_mem List.not_mem_nil,
    List.filter_cons_of_neg (by decide), hsplit, List.map_map]
  exact List.map_id'' (fun _ => String.ofList_toList) _

/-- The path of a place leads to this place, if anywhere. -/
theorem eq_of_locate_pathOf (hn : ∀ n ∈ place, IsProper n) (h : t.locate (pathOf place) = .ok q) :
    q = place := by
  have hsteps := foldlM_of_locate h
  rw [start, if_pos (isAbsolute_pathOf place), names_pathOf hn, List.foldlM_append] at hsteps
  cases hp : place.foldlM t.enter [] with
  | error problem =>
    rw [hp] at hsteps
    cases hsteps
  | ok there =>
    rw [hp] at hsteps
    have hthere : there = place := foldlM_enter hn hp
    rw [← hthere]
    -- The slash of the root asks for the root once more.
    change (ite _ _ _ : List String).foldlM t.enter there = .ok q at hsteps
    split at hsteps
    · change (t.enter there "." >>= pure) = .ok q at hsteps
      rw [bind_pure, enter] at hsteps
      split at hsteps
      · cases hsteps
        rfl
      · cases hsteps
      · cases hsteps
    · cases hsteps
      rfl

end FileTree

end StackLang
