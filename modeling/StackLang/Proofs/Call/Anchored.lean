import StackLang.Proofs.Call.Effects

/-!
# The return stack beneath an evaluation

Whatever calls an evaluation makes, the markers that lie on the return stack before it are not
touched: when no word runs any more, the stack is the same from its nearest marker on.

* `Anchored`: a return stack with the calls in flight above what was there before.
* `anchored_operation`: it stays so with each operation.
-/

namespace StackLang

namespace ReturnStack

/-- Beneath the marker of the outermost call in flight the stack is `base` from its nearest marker
on. -/
inductive Anchored (base : List ReturnItem) : Option CallFrame → List ReturnItem → Prop where
  | idle {items : List ReturnItem} (h : fromMarker items = base) : Anchored base none items
  | running {f : CallFrame} {caller : Option CallFrame} {below items : List ReturnItem}
      (h : fromMarker items = .call caller :: below) (hbelow : Anchored base caller below) :
      Anchored base (some f) items

namespace Anchored

variable {base items items' : List ReturnItem} {f : CallFrame}

theorem fromMarker_eq (h : Anchored base none items) : fromMarker items = base := by
  cases h with
  | idle h => exact h

/-- No word runs, and above the markers the stack may change. -/
theorem idle_congr (h : Anchored base none items) (hm : fromMarker items' = fromMarker items) :
    Anchored base none items' :=
  .idle (hm.trans h.fromMarker_eq)

/-- The same word runs, and above its marker the stack may change. -/
theorem running_congr (h : Anchored base (some f) items)
    (hm : fromMarker items' = fromMarker items) (g : CallFrame) :
    Anchored base (some g) items' := by
  cases h with
  | running h hbelow => exact .running (hm.trans h) hbelow

/-- What the marker of the running word covers shows again. -/
theorem leave {caller : Option CallFrame} (h : Anchored base (some f) items)
    (hm : fromMarker items = .call caller :: items') : Anchored base caller items' := by
  cases h with
  | running h hbelow =>
    rw [h] at hm
    cases hm
    exact hbelow

end Anchored

end ReturnStack

/-- The return stack of the session has the calls in flight above `base`. -/
def Session.Anchored (base : List ReturnItem) (s : Session) : Prop :=
  ReturnStack.Anchored base s.frame s.returns.items

namespace Action

open ReturnStack Session

variable {base : List ReturnItem} {s t : Session}

theorem anchored_operation (h : s.Anchored base) (ht : operation s = .ok () t) :
    t.Anchored base := by
  unfold Session.Anchored at h ⊢
  cases hf : s.frame with
  | none =>
    rw [hf] at h
    rcases tokenEffect_operation hf ht with hs | ⟨⟨g, hg, -⟩, hi, -⟩
    · rw [hs.frame, hf]
      exact h.idle_congr hs.below.marker
    · rw [hg, hi]
      exact .running rfl h
  | some f =>
    rw [hf] at h
    obtain ⟨x, -, he⟩ := effect_operation hf ht
    cases he with
    | stays frame below =>
      rw [frame]
      exact h.running_congr below.marker _
    | calls hc =>
      obtain ⟨g, hg, -⟩ := hc.frame
      rw [hg, hc.items]
      exact .running rfl (h.running_congr rfl _)
    | leaves _ hl => exact h.leave hl.marker

end Action

end StackLang
