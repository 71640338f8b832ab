import StackLang.Proofs.Call.Below
import StackLang.Proofs.Call.Run

/-!
# Call discipline

A call is closed off from what was on the return stack before it.  Until the call ends, no step
looks at the items below its marker or changes one of them, and when it ends they are all that is
left, and the caller goes on behind the call.

* `ReturnStack.onto`, `Session.onto`: other items at the bottom of the return stack.
* `Session.restored_of_call`: what holds at any time of a call, and at its end.
-/

namespace StackLang

/-- The stack with other items at its bottom. -/
def ReturnStack.onto (r : ReturnStack) (below : List ReturnItem) : ReturnStack :=
  ⟨r.items.take (r.items.length - below.length) ++ below, r.limit, _, rfl⟩

theorem ReturnStack.items_onto {r : ReturnStack} {above below below' : List ReturnItem}
    (hr : r.items = above ++ below) (hlen : below'.length = below.length) :
    (r.onto below').items = above ++ below' := by
  show r.items.take (r.items.length - below'.length) ++ below' = above ++ below'
  rw [hr, List.length_append, hlen, Nat.add_sub_cancel, List.take_left]

namespace Session

open Action ReturnStack

/-- The session with other items at the bottom of its return stack. -/
def onto (s : Session) (below : List ReturnItem) : Session :=
  { s with returns := s.returns.onto below }

variable {c : Option CallFrame} {below below' : List ReturnItem} {s t : Session}

theorem over_onto (hs : .call c :: below <:+ s.returns.items)
    (hlen : below'.length = below.length) : Over c c below below' s (s.onto below') := by
  obtain ⟨above, hs⟩ := hs
  refine ⟨above, s.returns.onto below', hs.symm, ?_, rfl, rfl⟩
  have hi : s.returns.items = (above ++ [.call c]) ++ below := by simp [hs]
  simpa using items_onto hi hlen

theorem eq_onto_of_over (hlen : below'.length = below.length) (h : Over c c below below' s t) :
    t = s.onto below' := by
  obtain ⟨above, returns, hs, hr, hl, rfl⟩ := h
  have hi : s.returns.items = (above ++ [.call c]) ++ below := by simp [hs]
  have hreturns : returns = s.returns.onto below' := by
    refine eq_of_items ?_ hl
    rw [items_onto hi hlen, hr]
    simp
  rw [hreturns, onto]

theorem eq_onto_of_behind (hlen : below'.length = below.length) (h : Behind c c below below' s t) :
    t = s.onto below' := by
  obtain ⟨returns, hf, hi, hr, hl, rfl⟩ := h
  have hi : s.returns.items = [] ++ below := hi
  have hreturns : returns = s.returns.onto below' := by
    refine eq_of_items ?_ hl
    rw [items_onto hi hlen, hr]
    rfl
  rw [hreturns, onto, hf]

/-- A step does the same whatever lies below a marker, and leaves it there. -/
theorem alike_step_onto (hs : .call c :: below <:+ s.returns.items)
    (hlen : below'.length = below.length) :
    Alike (fun t t' => t' = t.onto below') (step s) (step (s.onto below')) :=
  ((over_onto hs hlen).alike_step hlen rfl).mono fun _ _ h =>
    h.elim (eq_onto_of_over hlen) (eq_onto_of_behind hlen)

/-- The frame that a call goes back to: that of the word that made it, behind the call. -/
def resumption (s : Session) : Option CallFrame :=
  s.frame.map fun f => { f with next := f.next + 1 }

/-- A step that has made another call has called one word. -/
theorem calls_of_callDepth (h : step s = .ok () t) (hcall : t.callDepth = s.callDepth + 1) :
    Calls s.resumption s.returns t := by
  unfold resumption
  cases hf : s.frame with
  | none =>
    rcases tokenEffect_step hf h with h | h
    · have := h.callDepth
      omega
    · exact h
  | some f =>
    obtain ⟨x, -, he⟩ := effect_step hf h
    cases he with
    | stays frame hb goes =>
      have : t.callDepth = s.callDepth := hb.markers
      omega
    | calls h goes => exact h
    | leaves hop h =>
      have := h.callDepth
      omega

/-- A call puts its marker on top of the return stack.  At any time until it ends, the marker lies
on what was there before; no step depends on it, or changes it; and when the call has ended, the
return stack is what it was, and the caller goes on behind the call. -/
theorem restored_of_call (h : step s = .ok () t) (hcall : t.callDepth = s.callDepth + 1) :
    t.returns.items = .call s.resumption :: s.returns.items ∧
      ∀ u, InCall t.callDepth t u →
        (t.callDepth ≤ u.callDepth →
          .call s.resumption :: s.returns.items <:+ u.returns.items ∧
            ∀ below : List ReturnItem, below.length = s.returns.items.length →
              Alike (fun v v' => v' = v.onto below) (step u) (step (u.onto below))) ∧
        (u.callDepth < t.callDepth → u.returns = s.returns ∧ u.frame = s.resumption) := by
  have hc := calls_of_callDepth h hcall
  have hF : Followed fun _ _ => True := ⟨fun _ => trivial, fun _ _ _ => trivial⟩
  have ht := hc.within hF
  have hdepth : t.callDepth = markers s.returns.items + 1 := hcall
  refine ⟨hc.items, fun u hu => ?_⟩
  obtain ⟨hlimit, hu⟩ := hu.within hF (by omega) ht
  constructor
  · intro hd
    rcases hu with hu | hu
    · have hsuffix := hu.waiting.suffix
      exact ⟨hsuffix, fun below hlen => alike_step_onto hsuffix hlen⟩
    · have := hu.callDepth
      omega
  · intro hd
    rcases hu with hu | hu
    · have := hu.callDepth
      omega
    · exact ⟨eq_of_items hu.items (hlimit.trans hc.limit), hu.frame⟩

/-- The word `2 1 DO 7 >R EXIT LOOP`, called by another one, leaves a loop and a value on the return
stack when its call ends. -/
theorem restored_of_call_loop :
    let code : Code := #[⟨none, .push (.int 2)⟩, ⟨none, .push (.int 1)⟩,
      ⟨none, .loop (.start .ascending) (some 7)⟩, ⟨none, .push (.int 7)⟩,
      ⟨none, .callBuiltin 17⟩, ⟨none, .exit⟩, ⟨none, .loop .next (some 3)⟩, ⟨none, .exit⟩]
    let s : Session := { ofConfig .standard with
      dictionary := (builtins.insert (.ofBody none "COUNT" (.compiled code))).2
      returns := ⟨[.value (.int 5), .call none], 4096, 2, rfl⟩
      frame := some ⟨97, "CALLER", #[⟨none, .callWord 96⟩, ⟨none, .exit⟩], 0⟩ }
    ∃ t u v, step s = .ok () t ∧ t.callDepth = s.callDepth + 1 ∧
      (InCall t.callDepth t u ∧ u.returns.items.length = 5 ∧
        .call s.resumption :: s.returns.items <:+ u.returns.items) ∧
      InCall t.callDepth t v ∧ v.callDepth < t.callDepth ∧
        v.returns = s.returns ∧ v.frame = s.resumption := by
  intro code s
  have hrun : ∃ t u v : Session, step s = .ok () t ∧ t.callDepth = s.callDepth + 1 ∧
      runSteps? t.callDepth 5 t = some u ∧ u.callDepth = t.callDepth ∧
      u.returns.items.length = 5 ∧
      runSteps? t.callDepth 6 t = some v ∧ v.callDepth + 1 = t.callDepth :=
    ⟨_, _, _, rfl, rfl, rfl, rfl, rfl, rfl, rfl⟩
  obtain ⟨t, u, v, hs, hcall, hu, hdu, hlen, hv, hdv⟩ := hrun
  have hu := inCall_of_runSteps? hu
  have hv := inCall_of_runSteps? hv
  obtain ⟨-, hrest⟩ := restored_of_call hs hcall
  obtain ⟨hsuffix, -⟩ := (hrest u hu).1 (Nat.le_of_eq hdu.symm)
  have hlt : v.callDepth < t.callDepth := by omega
  exact ⟨t, u, v, hs, hcall, ⟨hu, hlen, hsuffix⟩, hv, hlt, (hrest v hv).2 hlt⟩

end Session

end StackLang
