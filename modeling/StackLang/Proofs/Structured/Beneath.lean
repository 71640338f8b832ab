import StackLang.Proofs.Call.Below
import StackLang.Proofs.Structured.Evaluation

/-!
# What lies beneath a call

What a word does does not depend on the frame that the marker of its call holds, so it runs in two
sessions alike whose markers hold different frames, and goes back to either of them.

* `Beneath`: the relation between two sessions that differ in nothing else.
* `matches_runWhile`: a word runs side by side in both, up to the end of its call.
-/

namespace StackLang

/-- The same word runs in both sessions, and all that it can see is the same, but under the marker
of a call the first session goes back to the frame `f` and the second one to `g`. -/
def Beneath (f g : CallFrame) (below : List ReturnItem) (s t : Session) : Prop :=
  ∃ above returns, s.returns.items = above ++ .call (some f) :: below ∧
    returns.items = above ++ .call (some g) :: below ∧ returns.limit = s.returns.limit ∧
    t = { s with returns }

/-- The call has ended, and its caller goes on. -/
def Returned (f g : CallFrame) (below : List ReturnItem) (s t : Session) : Prop :=
  s.frame = some f ∧ s.returns.items = below ∧ t = { s with frame := some g }

open Action

variable {f g : CallFrame} {below : List ReturnItem} {s t : Session}

theorem Beneath.over (h : Beneath f g below s t) : Over (some f) (some g) below below s t := h

theorem Over.beneath (h : Over (some f) (some g) below below s t) : Beneath f g below s t := h

/-- Nothing below the marker differs, so nothing but the frame differs behind the call. -/
theorem Behind.returned (h : Behind (some f) (some g) below below s t) :
    Returned f g below s t := by
  obtain ⟨returns, hf, hi, hr, hl, rfl⟩ := h
  rw [ReturnStack.eq_of_items (hr.trans hi.symm) hl]
  exact ⟨hf, hi, rfl⟩

theorem Beneath.alike_operation (h : Beneath f g below s t) :
    Alike (fun s t => Beneath f g below s t ∨ Returned f g below s t) (operation s)
      (operation t) :=
  (h.over.alike_operation rfl).mono fun _ _ h => h.imp Over.beneath Behind.returned

theorem Beneath.callDepth (h : Beneath f g below s t) : t.callDepth = s.callDepth :=
  h.over.callDepth rfl

theorem Beneath.lt_callDepth (h : Beneath f g below s t) :
    ReturnStack.markers below + 1 ≤ s.callDepth :=
  h.over.lt_callDepth

/-- The sessions may run different words, but an error would leave the same. -/
def Beside (s t : Session) : Prop :=
  ∃ frame returns, returns.limit = s.returns.limit ∧ t = { s with frame, returns }

theorem Beneath.beside (h : Beneath f g below s t) : Beside s t := by
  obtain ⟨-, returns, -, -, hl, rfl⟩ := h
  exact ⟨s.frame, returns, hl, rfl⟩

theorem Returned.beside (h : Returned f g below s t) : Beside s t := by
  obtain ⟨-, -, rfl⟩ := h
  exact ⟨some g, s.returns, rfl, rfl⟩

theorem Returned.callDepth (h : Returned f g below s t) :
    s.callDepth = ReturnStack.markers below ∧ t.callDepth = ReturnStack.markers below := by
  obtain ⟨-, hi, rfl⟩ := h
  exact ⟨congrArg _ hi, congrArg _ hi⟩

/-- Both fail with the same error, or both succeed with `Q`. -/
inductive Matches {α β : Type} (Q : α → Session → Session → Prop) :
    EStateM.Result Fault Session α → EStateM.Result Fault Session β → Prop where
  | ok {s t : Session} (a : α) (b : β) (h : Q a s t) : Matches Q (.ok a s) (.ok b t)
  | error {s t : Session} (e : Fault) (h : Beside s t) : Matches Q (.error e s) (.error e t)

/-- A word runs side by side in both sessions, and goes back to its caller in both. -/
theorem Beneath.matches_runWhile (h : Beneath f g below s t) (fuel : Nat) :
    Matches (fun _ => Returned f g below) (runWhile (ReturnStack.markers below + 1) fuel s)
      (runWhile (ReturnStack.markers below + 1) fuel t) := by
  induction fuel generalizing s t with
  | zero =>
    rw [runWhile_zero, runWhile_zero, h.callDepth, if_pos h.lt_callDepth, if_pos h.lt_callDepth]
    exact .error _ h.beside
  | succ fuel ih =>
    rw [runWhile_succ, runWhile_succ, h.callDepth, if_pos h.lt_callDepth, if_pos h.lt_callDepth]
    have ha := h.alike_operation
    generalize operation s = r at ha
    generalize operation t = r' at ha
    cases ha with
    | error e h => exact .error e (h.elim Beneath.beside Returned.beside)
    | ok a h =>
      rcases h with h | h
      · exact ih h
      · rename_i s' t'
        dsimp only
        rw [runWhile_of_lt (Nat.lt_succ_of_le (Nat.le_of_eq h.callDepth.1)),
          runWhile_of_lt (Nat.lt_succ_of_le (Nat.le_of_eq h.callDepth.2))]
        exact .ok () () h

end StackLang
