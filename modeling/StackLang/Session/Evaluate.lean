import StackLang.Session.Step

/-!
# Evaluation

Evaluating a source is queueing it and taking steps until nothing is in flight, unless the session
is in step mode, where the steps are asked for one by one.  An evaluation may run for ever, so a run
has an amount of fuel; running out of it is neither success nor failure, and the evaluation can be
carried on.

* `runPending_of_idle`: with nothing in flight a run does nothing.
* `checked_ok`, `checked_script`: a failed operation drops the evaluation, another one is as it is.
-/

namespace StackLang

/-- The name of the source that is given to `evaluate`. -/
def inputPath : String :=
  "<input>"

namespace Action

/-- Run an operation, and drop the evaluation in flight if it fails. -/
def checked {α : Type} (p : Action α) : Action α := fun s =>
  match p s with
  | .error (.script e) s => .error (.script e) (s.abort e)
  | result => result

theorem checked_ok {α : Type} {p : Action α} {s t : Session} {a : α} (h : p s = .ok a t) :
    checked p s = .ok a t := by
  simp [checked, h]

theorem checked_script {α : Type} {p : Action α} {s t : Session} {e : ScriptError}
    (h : p s = .error (.script e) t) : checked p s = .error (.script e) (t.abort e) := by
  simp [checked, h]

/-- Take steps until nothing is in flight. -/
def runPending : (fuel : Nat) → Action Unit
  | 0 => do
    if (← get).hasPending then throw .outOfFuel
  | fuel + 1 => do
    if (← get).hasPending then
      checked step
      runPending fuel

theorem runPending_of_idle {s : Session} (h : s.hasPending = false) (fuel : Nat) :
    runPending fuel s = .ok () s := by
  have hn : ¬ s.hasPending = true := by simp [h]
  cases fuel with
  | zero =>
    show (if s.hasPending = true then throw .outOfFuel else pure () : Action Unit) s = .ok () s
    rw [if_neg hn]
    rfl
  | succ fuel =>
    show (if s.hasPending = true then (do checked step; runPending fuel) else pure () :
      Action Unit) s = .ok () s
    rw [if_neg hn]
    rfl

/-- Put a source behind those that wait. -/
def enqueue (path source : String) : Action Unit :=
  modify fun s => { s with sources := s.sources ++ [.ofSource path source] }

/-- Evaluate a source, whose path identifies it in errors. -/
def processSource (fuel : Nat) (path source : String) : Action Unit := do
  enqueue path source
  if (← get).mode = .step then checked dropUsedSources else runPending fuel

/-- Evaluate a source that was entered by the user. -/
def evaluate (fuel : Nat) (source : String) : Action Unit :=
  processSource fuel inputPath source

/-- Take one step of the evaluation in flight.  Is there more to do? -/
def stepOnce : Action Bool := do
  if (← get).hasPending then
    checked step
    pure (← get).hasPending
  else pure false

end Action

end StackLang
