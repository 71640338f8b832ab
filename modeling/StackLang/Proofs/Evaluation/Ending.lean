import StackLang.Proofs.Framework.Triple
import StackLang.Session.Evaluate

/-!
# How an evaluation ends

An evaluation that is given fuel ends in some way or runs out of it.  What counts is how it ends
with enough of it, if it ever does.

* `Ends`: an evaluation ends in some way.
* `Ends.unique`: it ends in one way only, if more fuel does not change its end.
-/

namespace StackLang

/-- What an evaluation leaves for later ones to see. -/
structure Visible where
  stack : DataStack
  returns : ReturnStack
  dictionary : Dictionary
  cells : CellStore
  output : String

def Session.visible (s : Session) : Visible :=
  ⟨s.stack, s.returns, s.dictionary, s.cells, s.output⟩

/-- How an evaluation ends. -/
inductive Ending where
  | done (left : Visible)
  | failed (error : ScriptError) (left : Visible)
  | broken (b : Breach)

namespace Action

variable {α β : Type}

/-- The end of an evaluation, unless the fuel ran out before it. -/
def ending? : EStateM.Result Fault Session α → Option Ending
  | .ok _ s => some (.done s.visible)
  | .error (.script e) s => some (.failed e s.visible)
  | .error (.breach b) _ => some (.broken b)
  | .error .outOfFuel _ => none

/-- With enough fuel the evaluation ends in this way. -/
def Ends (run : (fuel : Nat) → Action α) (s : Session) (x : Ending) : Prop :=
  ∃ fuel, ending? (run fuel s) = some x

theorem exists_of_ending?_done {r : EStateM.Result Fault Session Unit} {left : Visible}
    (h : ending? r = some (.done left)) : ∃ s, r = .ok () s ∧ left = s.visible := by
  cases r with
  | ok _ s =>
    cases h
    exact ⟨s, rfl, rfl⟩
  | error f s => cases f <;> cases h

theorem Ends.congr {run : Nat → Action α} {run' : Nat → Action β} {s t : Session}
    (h : ∀ fuel, ending? (run fuel s) = ending? (run' fuel t)) (x : Ending) :
    Ends run s x ↔ Ends run' t x := by
  simp only [Ends, h]

/-- What more fuel does not change ends in one way only. -/
theorem Ends.unique {run : Nat → Action α} {s : Session}
    (hrun : ∀ fuel x, ending? (run fuel s) = some x →
      ∀ more, ending? (run (more + fuel) s) = some x) {x y : Ending} (hx : Ends run s x)
    (hy : Ends run s y) : x = y := by
  obtain ⟨m, hm⟩ := hx
  obtain ⟨n, hn⟩ := hy
  have hsum := hrun m x hm n
  rw [Nat.add_comm, hrun n y hn m] at hsum
  exact (Option.some.inj hsum).symm

end Action

end StackLang
