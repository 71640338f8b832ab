import Mathlib.Data.List.ReduceOption
import Mathlib.Data.Multiset.DershowitzManna
import Mathlib.Data.Prod.Lex
import StackLang.ReturnStack

/-!
# The weight of a running word

How much a word has still to do is measured by one weight for each loop around its next instruction,
and one for the body outside of all loops.  What counts first is how many calls may still be made
inside of the word, then how far inside of the loops the weight belongs, then how many turns its
loop has left, and last how much text lies ahead.

A loop in the text need not be open: `UNLOOP` drops the innermost open loop, and the next `LOOP`
then steps one that stands further out.  So for each loop in the text there is a slot, with the open
loop that belongs to it or with none.  Whatever happens inside of a loop, the weights of the loops
around it stay as they are, or one of them becomes smaller and those further in may become anything.
That is the order of Dershowitz and Manna on multisets, which has no infinite descent.

* `weights`: the weights of one running word.
* `Nearer`: the innermost open loop has come nearer to its end, or it was dropped.
* `weights_advance`, `weights_enter`, `weights_leave`, `weights_nearer`: what makes weights smaller.
-/

namespace StackLang

/-- The calls that may be made, the loops that may be entered, the turns and the text ahead. -/
abbrev Weight := ℕ ×ₗ ℕ ×ₗ ℕ ×ₗ ℕ

namespace Weight

def of (room inside turns ahead : ℕ) : Weight :=
  toLex (room, toLex (inside, toLex (turns, ahead)))

variable {r r' i i' t t' a a' : ℕ}

theorem lt_of_room (h : r' < r) : of r' i' t' a' < of r i t a :=
  Prod.Lex.toLex_lt_toLex.2 (.inl h)

theorem lt_of_inside (h : i' < i) : of r i' t' a' < of r i t a :=
  Prod.Lex.toLex_lt_toLex.2 (.inr ⟨rfl, Prod.Lex.toLex_lt_toLex.2 (.inl h)⟩)

theorem lt_of_turns (h : t' < t) : of r i t' a' < of r i t a :=
  Prod.Lex.toLex_lt_toLex.2 (.inr ⟨rfl, Prod.Lex.toLex_lt_toLex.2
    (.inr ⟨rfl, Prod.Lex.toLex_lt_toLex.2 (.inl h)⟩)⟩)

theorem lt_of_ahead (h : a' < a) : of r i t a' < of r i t a :=
  Prod.Lex.toLex_lt_toLex.2 (.inr ⟨rfl, Prod.Lex.toLex_lt_toLex.2
    (.inr ⟨rfl, Prod.Lex.toLex_lt_toLex.2 (.inr ⟨rfl, h⟩)⟩)⟩)

end Weight

/-- The turns that a loop has left.  A slot without a loop has less than any loop. -/
def turnsLeft : Option LoopFrame → ℕ
  | some x => (x.limit.toInt - x.index.toInt).toNat + 1
  | none => 0

/-- The weights of a word at `place` in a text of the length `span`.  The instruction with the index
`i` stands at the place `2 * i`, and the loop that it opens begins behind it, at `2 * i + 1`. -/
def weights (room span : ℕ) : (place : ℕ) → (scope : List ℕ) → (slots : List (Option LoopFrame)) →
    Multiset Weight
  | place, m :: scope, x :: slots =>
    .of room (span - (scope.length + 1)) (turnsLeft x) (span - place) ::ₘ
      weights room span (2 * m + 1) scope slots
  | place, _, _ => {.of room span 0 (span - place)}

/-- The innermost open loop has come nearer to its end, or it was dropped. -/
inductive Nearer : List (Option LoopFrame) → List (Option LoopFrame) → Prop
  | steps {x y : Option LoopFrame} {slots : List (Option LoopFrame)} (hx : x ≠ none)
    (h : turnsLeft y < turnsLeft x) : Nearer (y :: slots) (x :: slots)
  | outside {slots slots' : List (Option LoopFrame)} (h : Nearer slots' slots) :
    Nearer (none :: slots') (none :: slots)

namespace Nearer

variable {slots slots' : List (Option LoopFrame)} {x : LoopFrame} {rest : List LoopFrame}

/-- The innermost open loop has a slot, where it may be stepped or dropped. -/
theorem exists_of_loops (hs : slots.reduceOption = x :: rest) (y : Option LoopFrame)
    (hy : turnsLeft y < turnsLeft (some x)) :
    ∃ slots', Nearer slots' slots ∧ slots'.length = slots.length ∧
      slots'.reduceOption = y.toList ++ rest := by
  induction slots with
  | nil => cases hs
  | cons z slots ih =>
    cases z with
    | some z =>
      rw [List.reduceOption_cons_of_some] at hs
      cases hs
      refine ⟨y :: slots, .steps (Option.some_ne_none _) hy, rfl, ?_⟩
      cases y <;> simp
    | none =>
      rw [List.reduceOption_cons_of_none] at hs
      obtain ⟨slots', hn, hlen, hred⟩ := ih hs
      exact ⟨none :: slots', .outside hn, by simp [hlen], by simpa using hred⟩

theorem turnsLeft_none_lt (x : LoopFrame) : turnsLeft none < turnsLeft (some x) :=
  Nat.succ_pos _

end Nearer

/-! ## Smaller weights -/

section

open Multiset

variable {M N K : Multiset Weight} {w w' : Weight}

theorem lighter_add (h : IsDershowitzMannaLT M N) (K : Multiset Weight) :
    IsDershowitzMannaLT (M + K) (N + K) := by
  obtain ⟨X, Y, Z, hZ, rfl, rfl, hlt⟩ := h
  exact ⟨X + K, Y, Z, hZ, add_right_comm X Y K, add_right_comm X Z K, hlt⟩

theorem lighter_cons (w : Weight) (M : Multiset Weight) : IsDershowitzMannaLT M (w ::ₘ M) :=
  ⟨M, 0, {w}, singleton_ne_zero w, (add_zero M).symm, by rw [← singleton_add, add_comm],
    fun y hy => (notMem_zero y hy).elim⟩

theorem lighter_zero (h : M ≠ 0) : IsDershowitzMannaLT 0 M :=
  ⟨0, 0, M, h, rfl, (zero_add M).symm, fun y hy => (notMem_zero y hy).elim⟩

/-- One weight may be replaced by any number of smaller ones. -/
theorem lighter_replace (hK : ∀ y ∈ K, y < w) (M : Multiset Weight) :
    IsDershowitzMannaLT (K + M) (w ::ₘ M) :=
  ⟨M, K, {w}, singleton_ne_zero w, add_comm K M, by rw [← singleton_add, add_comm],
    fun y hy => ⟨w, mem_singleton_self w, hK y hy⟩⟩

end

variable {room span place place' i m : ℕ} {scope : List ℕ} {x : LoopFrame}
  {slots slots' : List (Option LoopFrame)}

open Multiset

/-- Weights are one for the innermost loop at hand, which tells how much text lies ahead, and those
for what is around it. -/
theorem exists_weights (room span : ℕ) (scope : List ℕ) (slots : List (Option LoopFrame)) :
    ∃ inside turns M, span ≤ inside + scope.length ∧ ∀ place,
      weights room span place scope slots = .of room inside turns (span - place) ::ₘ M := by
  cases scope with
  | nil => exact ⟨span, 0, 0, Nat.le_refl _, fun _ => rfl⟩
  | cons m scope =>
    cases slots with
    | nil => exact ⟨span, 0, 0, Nat.le_add_right _ _, fun _ => rfl⟩
    | cons x slots =>
      refine ⟨span - (scope.length + 1), turnsLeft x, _, ?_, fun _ => rfl⟩
      rw [List.length_cons]
      omega

theorem weights_ne_zero (room span place : ℕ) (scope : List ℕ) (slots : List (Option LoopFrame)) :
    weights room span place scope slots ≠ 0 := by
  obtain ⟨inside, turns, M, -, hw⟩ := exists_weights room span scope slots
  rw [hw]
  exact cons_ne_zero

/-- Wherever a word is, its weights are below that of a place in another one that may make more
calls. -/
theorem lt_of_mem_weights {w : Weight} {room' : ℕ} (hroom : room < room') {i t a : ℕ}
    (h : w ∈ weights room span place scope slots) : w < .of room' i t a := by
  fun_induction weights room span place scope slots with
  | case1 place m scope x slots ih =>
    rcases mem_cons.1 h with rfl | h
    · exact Weight.lt_of_room hroom
    · exact ih h
  | case2 place scope slots =>
    rw [mem_singleton.1 h]
    exact Weight.lt_of_room hroom

/-- Control goes forward in the text, where words with less room may be called before it does. -/
theorem weights_calls {K : Multiset Weight} (h : place < place') (hp : place < span)
    (hK : ∀ w ∈ K, ∀ i t a, w < .of room i t a) :
    IsDershowitzMannaLT (K + weights room span place' scope slots)
      (weights room span place scope slots) := by
  obtain ⟨inside, turns, M, -, hw⟩ := exists_weights room span scope slots
  rw [hw, hw, ← singleton_add, ← add_assoc]
  refine lighter_replace (fun y hy => ?_) M
  rcases mem_add.1 hy with hy | hy
  · exact hK y hy _ _ _
  · rw [mem_singleton.1 hy]
    exact Weight.lt_of_ahead (by omega)

/-- Less is left of the text ahead when control goes forward in it. -/
theorem weights_advance (h : place < place') (hp : place < span) :
    IsDershowitzMannaLT (weights room span place' scope slots)
      (weights room span place scope slots) := by
  rw [← zero_add (weights room span place' scope slots)]
  exact weights_calls h hp fun w hw => (notMem_zero w hw).elim

/-- The body of a loop belongs further in than what is around it. -/
theorem weights_enter (hi : 2 * i < span) (hlen : scope.length < span) :
    IsDershowitzMannaLT (weights room span place' (i :: scope) (some x :: slots))
      (weights room span (2 * i) scope slots) := by
  obtain ⟨inside, turns, M, hin, hw⟩ := exists_weights room span scope slots
  rw [weights, hw, hw, ← singleton_add, ← singleton_add, ← add_assoc]
  refine lighter_replace (fun y hy => ?_) M
  rcases mem_add.1 hy with hy | hy
  · rw [mem_singleton.1 hy]
    exact Weight.lt_of_inside (by omega)
  · rw [mem_singleton.1 hy]
    exact Weight.lt_of_ahead (by omega)

/-- Nothing is left of a loop behind its end. -/
theorem weights_leave (h : 2 * m + 1 < place') (hm : 2 * m + 1 < span) (y : Option LoopFrame) :
    IsDershowitzMannaLT (weights room span place' scope slots)
      (weights room span place (m :: scope) (y :: slots)) :=
  (weights_advance h hm).trans (lighter_cons _ _)

/-- Wherever control goes when the innermost open loop comes nearer to its end, and whatever weights
there are further in. -/
theorem weights_nearer_add (h : Nearer slots' slots) (hlen : slots.length = scope.length)
    (hs : scope.length ≤ span) {D : Multiset Weight}
    (hD : ∀ w ∈ D, ∃ j t a, w = .of room j t a ∧ j + scope.length < span) :
    IsDershowitzMannaLT (D + weights room span place' scope slots')
      (weights room span place scope slots) := by
  induction h generalizing scope place place' D with
  | @steps x y slots hx ht =>
    cases scope with
    | nil => cases hlen
    | cons m scope =>
      rw [weights, weights, ← singleton_add, ← add_assoc]
      refine lighter_replace (fun w hw => ?_) _
      rcases mem_add.1 hw with hw | hw
      · obtain ⟨j, t, a, rfl, hj⟩ := hD w hw
        rw [List.length_cons] at hj
        exact Weight.lt_of_inside (by omega)
      · rw [mem_singleton.1 hw]
        exact Weight.lt_of_turns ht
  | @outside slots slots' _ ih =>
    cases scope with
    | nil => cases hlen
    | cons m scope =>
      rw [weights, weights, ← singleton_add, ← add_assoc]
      refine (ih (by simpa using hlen) (by simp at hs; omega) fun w hw => ?_).trans
        (lighter_cons _ _)
      rw [List.length_cons] at hs
      rcases mem_add.1 hw with hw | hw
      · obtain ⟨j, t, a, rfl, hj⟩ := hD w hw
        rw [List.length_cons] at hj
        exact ⟨j, t, a, rfl, by omega⟩
      · exact ⟨_, _, _, mem_singleton.1 hw, by omega⟩

theorem weights_nearer (h : Nearer slots' slots) (hlen : slots.length = scope.length)
    (hs : scope.length ≤ span) :
    IsDershowitzMannaLT (weights room span place' scope slots')
      (weights room span place scope slots) := by
  rw [← zero_add (weights room span place' scope slots')]
  exact weights_nearer_add h hlen hs fun w hw => (notMem_zero w hw).elim

end StackLang
