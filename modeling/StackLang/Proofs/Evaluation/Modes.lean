import StackLang.Proofs.Evaluation.Ending
import StackLang.Proofs.Evaluation.Twins
import StackLang.Proofs.Token.Bounded

/-!
# The modes agree

However an evaluation is driven, all at once, one step after the other, or first so and then so, it
takes the same steps, so it ends in the same way or not at all.

* `runPending_add`: a run may be broken off and carried on.
* `ends_evaluate_iff`: an evaluation ends alike in every mode, observed or not.
-/

namespace StackLang

theorem Twins.visible {s t : Session} (h : Twins s t) : t.visible = s.visible := by
  rcases h with ⟨extra, -, -, -, mode, observers, rfl⟩ | ⟨-, -, -, mode, observers, rfl⟩ <;> rfl

namespace Action

variable {α : Type}

/-- Ask for steps until nothing is in flight. -/
def stepUntilDone : (fuel : Nat) → Action Unit
  | 0 => throw .outOfFuel
  | fuel + 1 => do
    if ← stepOnce then stepUntilDone fuel

/-- Queue a source in step mode, and ask for its steps one by one. -/
def evaluateStepwise (source : String) (fuel : Nat) : Action Unit := do
  evaluate fuel source
  stepUntilDone fuel

/-- Ask for a number of steps. -/
def takeSteps : Nat → Action Unit
  | 0 => pure ()
  | steps + 1 => do
    discard stepOnce
    takeSteps steps

/-- Queue a source in step mode, ask for some of its steps, and run what is left. -/
def evaluateSwitching (steps : Nat) (source : String) (fuel : Nat) : Action Unit := do
  evaluate fuel source
  takeSteps steps
  modify ({ · with mode := .run })
  evaluate fuel ""

/-! ## Runs -/

theorem runPending_succ (fuel : Nat) (s : Session) :
    runPending (fuel + 1) s =
      if s.hasPending = true then match checked step s with
        | .ok _ t => runPending fuel t
        | .error e t => .error e t
      else .ok () s := by
  rw [runPending, get_bind]
  split
  · rw [bind_apply]
    cases checked step s <;> rfl
  · rfl

theorem discard_stepOnce (s : Session) :
    discard stepOnce s = if s.hasPending = true then checked step s else .ok () s := by
  show (stepOnce >>= fun _ => pure ()) s = _
  rw [bind_apply, Session.stepOnce_eq]
  by_cases hp : s.hasPending = true
  · rw [if_pos hp, if_pos hp]
    cases checked step s <;> rfl
  · rw [if_neg hp, if_neg hp]
    rfl

theorem takeSteps_succ (steps : Nat) (s : Session) :
    takeSteps (steps + 1) s =
      if s.hasPending = true then match checked step s with
        | .ok _ t => takeSteps steps t
        | .error e t => .error e t
      else takeSteps steps s := by
  rw [takeSteps, bind_apply, discard_stepOnce]
  by_cases hp : s.hasPending = true
  · rw [if_pos hp, if_pos hp]
    cases checked step s <;> rfl
  · rw [if_neg hp, if_neg hp]

theorem stepUntilDone_succ (fuel : Nat) (s : Session) :
    stepUntilDone (fuel + 1) s =
      if s.hasPending = true then match checked step s with
        | .ok _ t => if t.hasPending = true then stepUntilDone fuel t else .ok () t
        | .error e t => .error e t
      else .ok () s := by
  rw [stepUntilDone, bind_apply, Session.stepOnce_eq]
  by_cases hp : s.hasPending = true
  · rw [if_pos hp, if_pos hp]
    cases checked step s with
    | ok a t =>
      dsimp only
      split <;> rfl
    | error e t => rfl
  · rw [if_neg hp, if_neg hp]
    rfl

theorem takeSteps_of_idle {s : Session} (h : s.hasPending = false) (steps : Nat) :
    takeSteps steps s = .ok () s := by
  induction steps with
  | zero => rfl
  | succ steps ih =>
    rw [takeSteps_succ, h]
    exact ih

/-- A run is some steps and the run that carries on behind them. -/
theorem runPending_add (steps fuel : Nat) (s : Session) :
    runPending (steps + fuel) s = match takeSteps steps s with
      | .ok _ t => runPending fuel t
      | .error e t => .error e t := by
  induction steps generalizing s with
  | zero => rw [Nat.zero_add]; rfl
  | succ steps ih =>
    cases hp : s.hasPending with
    | false =>
      rw [takeSteps_of_idle hp]
      exact (runPending_of_idle hp _).trans (runPending_of_idle hp fuel).symm
    | true =>
      rw [Nat.succ_add, runPending_succ, takeSteps_succ, if_pos hp, if_pos hp]
      cases checked step s with
      | ok a t => exact ih t
      | error e t => rfl

/-- Asking for steps until nothing is in flight is a run. -/
theorem stepUntilDone_eq (fuel : Nat) (s : Session) :
    stepUntilDone (fuel + 1) s = runPending (fuel + 1) s := by
  have pending (fuel : Nat) (s : Session) (hp : s.hasPending = true) :
      stepUntilDone fuel s = runPending fuel s := by
    induction fuel generalizing s with
    | zero =>
      rw [runPending, get_bind, if_pos hp]
      rfl
    | succ fuel ih =>
      rw [runPending_succ, stepUntilDone_succ, if_pos hp, if_pos hp]
      cases checked step s with
      | error e t => rfl
      | ok a t =>
        dsimp only
        split
        · rename_i ht
          exact ih t ht
        · rename_i ht
          exact (runPending_of_idle (by simpa using ht) fuel).symm
  cases hp : s.hasPending with
  | true => exact pending _ s hp
  | false =>
    rw [runPending_of_idle hp, stepUntilDone_succ, hp]
    rfl

/-! ## Endings -/

/-- More fuel does not change how a run ends. -/
theorem ending?_runPending_add {fuel : Nat} {s : Session} {x : Ending}
    (h : ending? (runPending fuel s) = some x) (more : Nat) :
    ending? (runPending (more + fuel) s) = some x := by
  induction fuel generalizing s with
  | zero =>
    have hp : s.hasPending = false := by
      cases hp : s.hasPending with
      | false => rfl
      | true =>
        rw [runPending, get_bind, if_pos hp] at h
        cases h
    rw [runPending_of_idle hp] at h ⊢
    exact h
  | succ fuel ih =>
    rw [← Nat.add_assoc, runPending_succ]
    rw [runPending_succ] at h
    split at h
    · rename_i hp
      rw [if_pos hp]
      cases hr : checked step s with
      | ok a t =>
        rw [hr] at h
        exact ih h
      | error f t =>
        rw [hr] at h
        exact h
    · rename_i hp
      rw [if_neg hp]
      exact h

/-- Twins run to the same end. -/
theorem ending?_of_twins {r r' : EStateM.Result Fault Session Unit} (h : Alike Twins r r') :
    ending? r' = ending? r := by
  cases h with
  | ok a h => rw [ending?, ending?, h.visible]
  | error f h =>
    cases f with
    | script e => rw [ending?, ending?, h.visible]
    | breach b => rfl
    | outOfFuel => rfl

theorem alike_runPending {s t : Session} (h : Twins s t) (fuel : Nat) :
    Alike Twins (runPending fuel s) (runPending fuel t) := by
  induction fuel generalizing s t with
  | zero =>
    rw [runPending, get_bind, get_bind, h.hasPending]
    split
    · exact .error _ h
    · exact .ok _ h
  | succ fuel ih =>
    rw [runPending_succ, runPending_succ, h.hasPending]
    split
    · rename_i hp
      have hs := h.alike_checkedStep hp
      generalize checked step s = r at hs
      generalize checked step t = r' at hs
      cases hs with
      | ok a h => exact ih h
      | error f h => exact .error f h
    · exact .ok _ h

theorem alike_takeSteps {s t : Session} (h : Twins s t) (steps : Nat) :
    Alike Twins (takeSteps steps s) (takeSteps steps t) := by
  induction steps generalizing s t with
  | zero => exact .ok _ h
  | succ steps ih =>
    rw [takeSteps_succ, takeSteps_succ, h.hasPending]
    split
    · rename_i hp
      have hs := h.alike_checkedStep hp
      generalize checked step s = r at hs
      generalize checked step t = r' at hs
      cases hs with
      | ok a h => exact ih h
      | error f h => exact .error f h
    · exact ih h

theorem ends_runPending_of_twins {s t : Session} (h : Twins s t) (x : Ending) :
    Ends runPending s x ↔ Ends runPending t x :=
  Ends.congr (fun fuel => (ending?_of_twins (alike_runPending h fuel)).symm) x

/-- A run from a session that some steps lead to. -/
theorem ends_runPending_of_takeSteps {s t : Session} {steps : Nat}
    (h : takeSteps steps s = .ok () t) (x : Ending) :
    Ends runPending s x ↔ Ends runPending t x := by
  have hadd (fuel : Nat) : runPending (steps + fuel) s = runPending fuel t := by
    rw [runPending_add, h]
  constructor
  · rintro ⟨fuel, hx⟩
    exact ⟨fuel, hadd fuel ▸ ending?_runPending_add hx steps⟩
  · rintro ⟨fuel, hx⟩
    exact ⟨steps + fuel, hadd fuel ▸ hx⟩

/-- The steps of a run fail as the run does. -/
theorem ends_runPending_of_failedSteps {s t : Session} {steps : Nat} {f : Fault}
    (h : takeSteps steps s = .error f t) (x : Ending) :
    Ends runPending s x ↔ ending? (.error f t : EStateM.Result Fault Session Unit) = some x := by
  have hadd (fuel : Nat) : runPending (steps + fuel) s = .error f t := by
    rw [runPending_add, h]
  constructor
  · rintro ⟨fuel, hx⟩
    exact hadd fuel ▸ ending?_runPending_add hx steps
  · intro hx
    exact ⟨steps + 0, hadd 0 ▸ hx⟩

/-- A run ends as it does behind its first step. -/
theorem ends_runPending_of_step {s t : Session} (hp : s.hasPending = true)
    (hs : checked step s = .ok () t) (x : Ending) :
    Ends runPending s x ↔ Ends runPending t x := by
  have hone : takeSteps 1 s = .ok () t := by
    rw [takeSteps_succ, if_pos hp, hs]
    rfl
  exact ends_runPending_of_takeSteps hone x

theorem ends_runPending_of_failedStep {s t : Session} {f : Fault} (hp : s.hasPending = true)
    (hs : checked step s = .error f t) (x : Ending) :
    Ends runPending s x ↔ ending? (.error f t : EStateM.Result Fault Session Unit) = some x := by
  have hone : takeSteps 1 s = .error f t := by rw [takeSteps_succ, if_pos hp, hs]
  exact ends_runPending_of_failedSteps hone x

theorem ends_stepUntilDone (s : Session) (x : Ending) :
    Ends stepUntilDone s x ↔ Ends runPending s x := by
  constructor
  · rintro ⟨fuel, hx⟩
    cases fuel with
    | zero => cases hx
    | succ fuel => exact ⟨fuel + 1, stepUntilDone_eq fuel s ▸ hx⟩
  · rintro ⟨fuel, hx⟩
    refine ⟨fuel + 1, ?_⟩
    rw [stepUntilDone_eq, Nat.add_comm]
    exact ending?_runPending_add hx 1

/-! ## Sources that are used up -/

/-- A session in which nothing but one source is in flight. -/
structure Queued (s : Session) (p : Pending) : Prop where
  frame : s.frame = none
  sources : s.sources = [p]
  running : s.cancelled = false
  closed : p.definition = none

namespace Queued

variable {s : Session} {p : Pending} (h : Queued s p)
include h

theorem dropUsedSources_eq :
    dropUsedSources s = .ok () { s with sources := if p.isExhausted then [] else [p] } := by
  unfold dropUsedSources
  rw [get_bind, if_pos (by rw [h.frame]; rfl), h.sources, unusedSources, h.closed]
  cases p.isExhausted <;> rfl

/-- A source without tokens takes one step, which drops it. -/
theorem checkedStep_eq (he : p.isExhausted = true) :
    checked step s = .ok () { s with sources := [] } := by
  refine checked_ok ?_
  have ht : p.nextToken? = none := by
    unfold Pending.nextToken?
    rw [List.isEmpty_iff.1 he]
  rw [Session.step_of_running h.running, bind_apply,
    Session.operation_of_exhausted h.frame h.sources ht]
  dsimp only
  rw [h.dropUsedSources_eq, he]
  rfl

theorem twins_dropped :
    Twins { s with sources := if p.isExhausted then [] else [p] }
      { s with sources := if p.isExhausted then [] else [p] } := by
  cases p.isExhausted with
  | true => exact .inr ⟨h.frame, rfl, h.running, s.mode, s.observers, rfl⟩
  | false => exact .inl ⟨[], nofun, by simp, h.running, s.mode, s.observers, by simp⟩

/-- Whether the source is dropped at once or by the first step does not matter. -/
theorem ends_dropped (x : Ending) :
    Ends runPending s x ↔
      Ends runPending { s with sources := if p.isExhausted then [] else [p] } x := by
  cases he : p.isExhausted with
  | false =>
    have hs : { s with sources := [p] } = s := by rw [← h.sources]
    rw [if_neg (by simp), hs]
  | true =>
    have hp : s.hasPending = true := by simp [Session.hasPending, h.sources]
    rw [if_pos rfl]
    exact ends_runPending_of_step hp (h.checkedStep_eq he) x

end Queued

end Action

namespace Session

/-- The session in another mode and with other observers. -/
def driven (s : Session) (mode : Mode) (observers : Observers) : Session :=
  { s with mode, observers }

/-- That session with one source in flight. -/
def queued (s : Session) (mode : Mode) (observers : Observers) (source : String) : Session :=
  { s.driven mode observers with sources := [.ofSource inputPath source] }

end Session

namespace Action

theorem isExhausted_empty (path : String) : (Pending.ofSource path "").isExhausted = true := by
  rw [Pending.ofSource_eq 1 (by decide)]
  rfl

/-- The evaluation of an empty text carries on with what is in flight. -/
theorem ends_carryOn {s : Session} (h : Twins s s) (x : Ending) :
    Ends (evaluate · "") { s with mode := .run } x ↔ Ends runPending s x := by
  have hrun : Ends (evaluate · "") { s with mode := .run } x ↔ Ends runPending { s with
      mode := .run
      sources := s.sources ++ [.ofSource inputPath ""] } x :=
    Ends.congr (fun fuel => by rw [Session.evaluate_of_run fun h => by cases h]) x
  rw [hrun]
  rcases h with ⟨extra, -, h⟩ | ⟨hf, hs, hc, -⟩
  · have ht : Twins s { s with
        mode := .run
        sources := s.sources ++ [.ofSource inputPath ""] } := by
      refine .inl ⟨[.ofSource inputPath ""], ?_, h.waiting, h.running, .run, s.observers, rfl⟩
      intro p hp
      cases List.mem_singleton.1 hp
      exact ⟨isExhausted_empty _, rfl⟩
    exact (ends_runPending_of_twins ht x).symm
  · have hq : Queued { s with
        mode := .run
        sources := [.ofSource inputPath ""] } (.ofSource inputPath "") :=
      ⟨hf, rfl, hc, rfl⟩
    rw [hs, List.nil_append, hq.ends_dropped, isExhausted_empty, if_pos rfl]
    exact (ends_runPending_of_twins (.inr ⟨hf, hs, hc, .run, s.observers, by rw [hs]⟩) x).symm

section

variable {s : Session} (hp : s.hasPending = false) (source : String)
include hp

theorem sources_append_of_idle (p : Pending) : s.sources ++ [p] = [p] := by
  rw [(Session.idle_of_hasPending hp).2, List.nil_append]

theorem ends_evaluate {mode : Mode} (hm : mode ≠ .step) (observers : Observers) (x : Ending) :
    Ends (evaluate · source) (s.driven mode observers) x ↔
      Ends runPending (s.queued mode observers source) x := by
  refine Ends.congr (fun fuel => ?_) x
  rw [Session.evaluate_of_run hm]
  show ending? (runPending fuel { s.driven mode observers with
    sources := s.sources ++ [.ofSource inputPath source] }) = _
  rw [sources_append_of_idle hp]
  rfl

variable (hc : s.cancelled = false)
include hc

theorem queued_queued (mode : Mode) (observers : Observers) :
    Queued (s.queued mode observers source) (.ofSource inputPath source) :=
  ⟨(Session.idle_of_hasPending hp).1, rfl, hc, rfl⟩

/-- In step mode an evaluation queues its source, or drops it when it has no tokens. -/
theorem evaluate_queues (observers : Observers) (fuel : Nat) :
    evaluate fuel source (s.driven .step observers) = .ok () { s.queued .step observers source with
      sources := if (Pending.ofSource inputPath source).isExhausted then []
        else [.ofSource inputPath source] } := by
  rw [Session.evaluate_of_step rfl]
  show checked dropUsedSources { s.driven .step observers with
    sources := s.sources ++ [.ofSource inputPath source] } = _
  rw [sources_append_of_idle hp]
  exact checked_ok (queued_queued hp source hc .step observers).dropUsedSources_eq

theorem ends_evaluateStepwise (observers : Observers) (x : Ending) :
    Ends (evaluateStepwise source) (s.driven .step observers) x ↔
      Ends runPending (s.queued .step observers source) x := by
  rw [(queued_queued hp source hc .step observers).ends_dropped, ← ends_stepUntilDone]
  refine Ends.congr (fun fuel => ?_) x
  rw [evaluateStepwise, bind_apply, evaluate_queues hp source hc]

theorem ends_evaluateSwitching (observers : Observers) (steps : Nat) (x : Ending) :
    Ends (evaluateSwitching steps source) (s.driven .step observers) x ↔
      Ends runPending (s.queued .step observers source) x := by
  have hq := queued_queued hp source hc .step observers
  have hrun (fuel : Nat) : evaluateSwitching steps source fuel (s.driven .step observers) =
      (takeSteps steps >>= fun _ => do
        modify ({ · with mode := .run })
        evaluate fuel "") { s.queued .step observers source with
          sources := if (Pending.ofSource inputPath source).isExhausted then []
            else [.ofSource inputPath source] } := by
    rw [evaluateSwitching, bind_apply, evaluate_queues hp source hc]
  rw [hq.ends_dropped]
  have ht := alike_takeSteps hq.twins_dropped steps
  generalize hr : takeSteps steps { s.queued .step observers source with
    sources := if (Pending.ofSource inputPath source).isExhausted then []
      else [.ofSource inputPath source] } = r at ht
  cases ht with
  | ok a hu =>
    rw [ends_runPending_of_takeSteps hr, ← ends_carryOn hu]
    refine Ends.congr (fun fuel => ?_) x
    rw [hrun, bind_apply, hr]
    rfl
  | error f hu =>
    rw [ends_runPending_of_failedSteps hr]
    refine ⟨fun ⟨fuel, hx⟩ => ?_, fun hx => ⟨0, ?_⟩⟩
    · rw [hrun, bind_apply, hr] at hx
      exact hx
    · rw [hrun, bind_apply, hr]
      exact hx

/-- An evaluation ends in the same way in all modes: run at once, waiting for the observers, by
single steps, or by some steps and a run of what is left; and whether it is observed or not. -/
theorem ends_evaluate_iff (observers observers₁ observers₂ observers₃ : Observers) (steps : Nat)
    (x : Ending) :
    (Ends (evaluate · source) (s.driven .run observers) x ↔
        Ends (evaluate · source) (s.driven .synchronized observers₁) x) ∧
      (Ends (evaluate · source) (s.driven .run observers) x ↔
        Ends (evaluateStepwise source) (s.driven .step observers₂) x) ∧
      (Ends (evaluate · source) (s.driven .run observers) x ↔
        Ends (evaluateSwitching steps source) (s.driven .step observers₃) x) := by
  have twins (mode : Mode) (observers' : Observers) :
      Ends runPending (s.queued .run observers source) x ↔
        Ends runPending (s.queued mode observers' source) x := by
    have ht : Twins (s.queued .run observers source) (s.queued mode observers' source) :=
      .inl ⟨[], nofun, List.cons_ne_nil _ _, hc, mode, observers', rfl⟩
    exact ends_runPending_of_twins ht x
  have hrun : Mode.run ≠ .step := by decide
  have hsync : Mode.synchronized ≠ .step := by decide
  rw [ends_evaluate hp source hrun, ends_evaluate hp source hsync,
    ends_evaluateStepwise hp source hc, ends_evaluateSwitching hp source hc]
  exact ⟨twins _ _, twins _ _, twins _ _⟩

end

theorem ends_evaluate_sum :
    let s := Session.ofConfig .standard
    s.hasPending = false ∧ s.cancelled = false ∧ ∃ left : Visible, left.stack = [.int 5] ∧
      Ends (evaluate · "2 3 +") (s.driven .run .none) (.done left) ∧
      Ends (evaluate · "2 3 +") (s.driven .synchronized .none) (.done left) ∧
      Ends (evaluateStepwise "2 3 +") (s.driven .step Observers.none.attachJournal)
        (.done left) ∧
      Ends (evaluateSwitching 1 "2 3 +") (s.driven .step .none) (.done left) := by
  intro s
  have hstack : (match evaluate 3 "2 3 +" (s.driven .run .none) with
      | .ok _ t => some t.stack
      | .error _ _ => none) = some [.int 5] := by
    rw [Session.evaluate_of_run (fun h => by cases h), Pending.ofSource_eq 6 (by decide)]
    decide +kernel
  cases hr : evaluate 3 "2 3 +" (s.driven .run .none) with
  | error f t =>
    rw [hr] at hstack
    cases hstack
  | ok a t =>
    rw [hr] at hstack
    have hrun : Ends (evaluate · "2 3 +") (s.driven .run .none) (.done t.visible) :=
      ⟨3, congrArg ending? hr⟩
    obtain ⟨hsync, hstep, hswitch⟩ := ends_evaluate_iff (s := s) rfl "2 3 +" rfl .none .none
      Observers.none.attachJournal .none 1 (.done t.visible)
    exact ⟨rfl, rfl, t.visible, Option.some.inj hstack, hrun, hsync.1 hrun, hstep.1 hrun,
      hswitch.1 hrun⟩

end Action

end StackLang
