import StackLang.Proofs.Session.Steps
import StackLang.Proofs.Structured.Beneath

/-!
# The machine mirrors an evaluation

`Mirrors depth fuel s Q r`: what the machine does from the session `s` agrees with a result `r` of
an evaluation that was given the fuel.  If the evaluation succeeds, the machine gets to a session
that `Q` relates to that of the result; if it fails, the machine fails in the same way; and if it
has run out of fuel, so would the machine.

* `Mirrors.bind`, `Mirrors.operation`: one part behind the other, and one operation.
* `Mirrors.nested`: a call of another word.
-/

namespace StackLang

open Action

variable {α β : Type} {depth fuel : Nat} {s t u : Session}

/-! ## Runs -/

/-- The machine gets from one session to the other by `count` operations. -/
def Leads (depth count : Nat) (s t : Session) : Prop :=
  ∀ fuel, runWhile depth (count + fuel) s = runWhile depth fuel t

/-- The machine runs out of the fuel. -/
def Stalls (depth fuel : Nat) (s : Session) : Prop :=
  ∃ t, runWhile depth fuel s = .error .outOfFuel t

theorem Leads.refl (depth : Nat) (s : Session) : Leads depth 0 s s :=
  fun fuel => by rw [Nat.zero_add]

theorem Leads.trans {j k : Nat} (h : Leads depth j s t) (h' : Leads depth k t u) :
    Leads depth (j + k) s u := by
  intro fuel
  rw [Nat.add_assoc, h, h']

theorem leads_of_operation (hd : depth ≤ s.callDepth) (h : operation s = .ok () t) :
    Leads depth 1 s t := by
  intro fuel
  rw [Nat.add_comm, runWhile_succ, if_pos hd, h]

theorem stalls_zero (hd : depth ≤ s.callDepth) : Stalls depth 0 s :=
  ⟨s, by rw [runWhile_zero, if_pos hd]⟩

theorem Stalls.le_callDepth (h : Stalls depth fuel s) : depth ≤ s.callDepth := by
  obtain ⟨u, hu⟩ := h
  refine Nat.not_lt.1 fun hd => ?_
  rw [runWhile_of_lt hd] at hu
  cases hu

theorem Stalls.pred (h : Stalls depth (fuel + 1) s) : Stalls depth fuel s := by
  induction fuel generalizing s with
  | zero => exact stalls_zero h.le_callDepth
  | succ fuel ih =>
    have hd := h.le_callDepth
    obtain ⟨u, hu⟩ := h
    rw [runWhile_succ, if_pos hd] at hu
    rw [Stalls, runWhile_succ, if_pos hd]
    cases ho : operation s with
    | error e t =>
      rw [ho] at hu
      exact ⟨u, hu⟩
    | ok a t =>
      rw [ho] at hu
      exact ih ⟨u, hu⟩

theorem Stalls.mono {fewer : Nat} (h : Stalls depth fuel s) (hle : fewer ≤ fuel) :
    Stalls depth fewer s := by
  induction hle with
  | refl => exact h
  | step _ ih => exact ih h.pred

theorem Leads.stalls {k : Nat} (h : Leads depth k s t) (ht : Stalls depth fuel t) :
    Stalls depth (k + fuel) s := by
  obtain ⟨u, hu⟩ := ht
  exact ⟨u, (h fuel).trans hu⟩

/-- What fails with more calls in flight fails as well if fewer are waited for. -/
theorem runWhile_of_error {e : Fault} (h : runWhile (depth + 1) fuel s = .error e t) :
    runWhile depth fuel s = .error e t := by
  induction fuel generalizing s with
  | zero =>
    rw [runWhile_zero] at h
    split at h
    · rw [runWhile_zero, if_pos (by omega)]
      exact h
    · cases h
  | succ fuel ih =>
    rw [runWhile_succ] at h
    split at h
    · rw [runWhile_succ, if_pos (by omega)]
      cases ho : operation s with
      | error e' u =>
        rw [ho] at h
        exact h
      | ok a u =>
        rw [ho] at h
        exact ih h
    · cases h

/-- The end of a call is a session on the way of its caller. -/
theorem exists_leads_of_ok {outer : Nat} (h : runWhile depth fuel s = .ok () t)
    (ho : outer ≤ depth) : ∃ k, Leads outer k s t := by
  induction fuel generalizing s with
  | zero =>
    rw [runWhile_zero] at h
    split at h
    · cases h
    · cases h
      exact ⟨0, Leads.refl outer _⟩
  | succ fuel ih =>
    rw [runWhile_succ] at h
    split at h
    · cases hs : operation s with
      | error e u =>
        rw [hs] at h
        cases h
      | ok a u =>
        rw [hs] at h
        obtain ⟨k, hk⟩ := ih h
        exact ⟨1 + k, (leads_of_operation (by omega) hs).trans hk⟩
    · cases h
      exact ⟨0, Leads.refl outer _⟩

/-- A run that ends has come back from the call. -/
theorem callDepth_of_ok (h : runWhile depth fuel s = .ok () t) : t.callDepth < depth := by
  induction fuel generalizing s with
  | zero =>
    rw [runWhile_zero] at h
    split at h
    · cases h
    · rename_i hd
      cases h
      exact Nat.not_le.1 hd
  | succ fuel ih =>
    rw [runWhile_succ] at h
    split at h
    · cases hs : operation s with
      | error e u =>
        rw [hs] at h
        cases h
      | ok a u =>
        rw [hs] at h
        exact ih h
    · rename_i hd
      cases h
      exact Nat.not_le.1 hd

theorem Beside.refl (s : Session) : Beside s s :=
  ⟨s.frame, s.returns, rfl, rfl⟩

theorem Beside.trans (h : Beside s t) (h' : Beside t u) : Beside s u := by
  obtain ⟨frame, returns, hl, rfl⟩ := h
  obtain ⟨frame', returns', hl', rfl⟩ := h'
  exact ⟨frame', returns', hl'.trans hl, rfl⟩

/-! ## Mirrored evaluations -/

/-- What the machine does agrees with the result of an evaluation. -/
def Mirrors (depth fuel : Nat) (s : Session) (Q : α → Session → Session → Prop) :
    EStateM.Result Fault Session α → Prop
  | .ok a t => ∃ k u, Leads depth k s u ∧ Q a t u
  | .error .outOfFuel _ => Stalls depth fuel s
  | .error e t => ∃ k u, runWhile depth k s = .error e u ∧ Beside t u

namespace Mirrors

variable {Q Q' : α → Session → Session → Prop} {R : β → Session → Session → Prop}
  {r : EStateM.Result Fault Session α}

theorem pure {a : α} (h : Q a t s) : Mirrors depth fuel s Q (.ok a t) :=
  ⟨0, s, Leads.refl depth s, h⟩

theorem mono (h : Mirrors depth fuel s Q r) (hQ : ∀ a t u, Q a t u → Q' a t u) :
    Mirrors depth fuel s Q' r := by
  cases r with
  | ok a t =>
    obtain ⟨k, u, hk, hq⟩ := h
    exact ⟨k, u, hk, hQ a t u hq⟩
  | error e t => cases e <;> exact h

/-- The machine takes at least one operation to where it mirrors the evaluation. -/
theorem after {k : Nat} (hk : Leads depth (k + 1) s t) (h : Mirrors depth fuel t Q r) :
    Mirrors depth (fuel + 1) s Q r := by
  cases r with
  | ok a v =>
    obtain ⟨j, u, hj, hq⟩ := h
    exact ⟨k + 1 + j, u, hk.trans hj, hq⟩
  | error e v =>
    cases e with
    | outOfFuel => exact (hk.stalls h).mono (by omega)
    | script e | breach b =>
      obtain ⟨j, u, hj, hb⟩ := h
      exact ⟨k + 1 + j, u, (hk j).trans hj, hb⟩

theorem less {fewer : Nat} (h : Mirrors depth fuel s Q r) (hle : fewer ≤ fuel) :
    Mirrors depth fewer s Q r := by
  cases r with
  | ok a t => exact h
  | error e t =>
    cases e with
    | outOfFuel => exact Stalls.mono h hle
    | script e | breach b => exact h

/-- The machine gets to where it mirrors the evaluation. -/
theorem behind {k : Nat} (hk : Leads depth k s t) (h : Mirrors depth fuel t Q r) :
    Mirrors depth fuel s Q r := by
  cases r with
  | ok a v =>
    obtain ⟨j, u, hj, hq⟩ := h
    exact ⟨k + j, u, hk.trans hj, hq⟩
  | error e v =>
    cases e with
    | outOfFuel => exact (hk.stalls h).mono (Nat.le_add_left fuel k)
    | script e | breach b =>
      obtain ⟨j, u, hj, hb⟩ := h
      exact ⟨k + j, u, (hk j).trans hj, hb⟩

/-- One part of the evaluation behind the other. -/
theorem bind {p : Action α} {q : α → Action β} (hp : Mirrors depth fuel s Q (p t))
    (hq : ∀ a t u, Q a t u → Mirrors depth fuel u R (q a t)) :
    Mirrors depth fuel s R ((p >>= q) t) := by
  rw [bind_apply]
  cases hr : p t with
  | ok a v =>
    rw [hr] at hp
    obtain ⟨k, u, hk, hv⟩ := hp
    exact behind hk (hq a v u hv)
  | error e v =>
    rw [hr] at hp
    cases e <;> exact hp

/-- One operation of the machine.  It is still to be done where the result is looked at. -/
theorem operation {r' : EStateM.Result Fault Session Unit} (hd : depth ≤ s.callDepth)
    (h : Matches Q r r') (hr : Action.operation s = r') :
    Mirrors depth fuel s (fun a t v => ∃ w, Q a t w ∧ Leads depth 1 v w) r := by
  cases h with
  | ok a b hq => exact ⟨0, s, Leads.refl depth s, _, hq, leads_of_operation hd hr⟩
  | @error t w e hb =>
    have hfail (k : Nat) : runWhile depth (k + 1) s = .error e w := by
      rw [runWhile_succ, if_pos hd, hr]
    cases e with
    | outOfFuel =>
      have hstall : Stalls depth (fuel + 1) s := ⟨w, hfail fuel⟩
      exact hstall.pred
    | script e | breach b => exact ⟨1, w, hfail 0, hb⟩

/-- The machine mirrors itself. -/
theorem runWhile (depth fuel : Nat) (s : Session) :
    Mirrors depth fuel s (fun _ t u => u = t ∧ t.callDepth < depth)
      (Action.runWhile depth fuel s) := by
  cases h : Action.runWhile depth fuel s with
  | ok a t =>
    obtain ⟨k, hk⟩ := exists_leads_of_ok h (Nat.le_refl depth)
    exact ⟨k, t, hk, rfl, callDepth_of_ok h⟩
  | error e t =>
    cases e with
    | outOfFuel => exact ⟨t, h⟩
    | script e | breach b => exact ⟨fuel, t, h, Beside.refl t⟩

/-- A call that the evaluation starts with another frame beneath it. -/
theorem nested {f g : CallFrame} {below : List ReturnItem} (hst : Beneath f g below s t)
    (h : Mirrors (ReturnStack.markers below + 1) fuel s
      (fun _ t u => u = t ∧ t.callDepth < ReturnStack.markers below + 1) r) :
    Mirrors (ReturnStack.markers below) fuel t (fun _ => Returned f g below) r := by
  have beside {count : Nat} {e : Fault} {u : Session}
      (hu : Action.runWhile (ReturnStack.markers below + 1) count s = .error e u) :
      ∃ v, Action.runWhile (ReturnStack.markers below) count t = .error e v ∧ Beside u v := by
    have hm := hst.matches_runWhile count
    rw [hu] at hm
    generalize hv : Action.runWhile (ReturnStack.markers below + 1) count t = r' at hm
    cases hm with
    | error _ hb => exact ⟨_, runWhile_of_error hv, hb⟩
  cases r with
  | ok a v =>
    obtain ⟨k, v, hk, rfl, hlt⟩ := h
    have hm := hst.matches_runWhile (k + 0)
    rw [hk, runWhile_of_lt hlt] at hm
    generalize hv : Action.runWhile (ReturnStack.markers below + 1) (k + 0) t = r' at hm
    cases hm with
    | ok _ _ hret =>
      obtain ⟨j, hj⟩ := exists_leads_of_ok hv (Nat.le_succ _)
      exact ⟨j, _, hj, hret⟩
  | error e v =>
    cases e with
    | outOfFuel =>
      obtain ⟨u, hu⟩ := h
      obtain ⟨w, hw, -⟩ := beside hu
      exact ⟨w, hw⟩
    | script e | breach b =>
      obtain ⟨k, u, hu, hb⟩ := h
      obtain ⟨w, hw, hb'⟩ := beside hu
      exact ⟨k, w, hw, hb.trans hb'⟩

end Mirrors

end StackLang
