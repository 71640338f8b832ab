import StackLang.Proofs.Events.Brackets

/-!
# Words are properly nested in what observers are told

Whatever is evaluated, the words that observers are told of start and end in a properly nested way.
If the evaluation succeeds all of them have ended.  If it fails, its failure is the last that
observers are told, and those that have not ended are the words that the error says were running,
and the word that was being called if there was no room for the marker of its call.

* `Session.FailsIn`: the session in which a run fails.
* `Session.Closes`: how a run ends for its observers.
* `closes_runPending`: every run of a session that moves lead to ends like that.
* `nested_events`: the events of an evaluation.
-/

namespace StackLang.Session

open StackLang.Action

variable {o : Observers} {depth : Nat} {s t u : Session} {e : ScriptError}

/-- With nothing in flight the list of calls is empty. -/
theorem Tracked.words_eq_nil (ht : s.Tracked depth) (hl : Linked s.frame s.returns.items)
    (hp : s.hasPending = false) : s.calls.map (·.word) = [] := by
  obtain ⟨hf, -⟩ := idle_of_hasPending hp
  rw [ht.words, active, hf, ReturnStack.callers_of_linked (hf ▸ hl)]
  rfl

/-- With nothing in flight all words have ended. -/
theorem Attended.idle (hs : s.Attended o) (ht : s.Tracked depth)
    (hl : Linked s.frame s.returns.items) (hp : s.hasPending = false) :
    Told o [] s.observers := by
  obtain ⟨words, hw, htold⟩ := hs
  rw [ht.words_eq_nil hl hp] at hw
  exact hw ▸ htold

/-- Steps of `s` lead to `u`, where one fails with `e`. -/
structure FailsIn (s : Session) (e : ScriptError) (u : Session) : Prop where
  steps : ∃ n, takeSteps n s = .ok () u
  fails : ∃ v, step u = .error (.script e) v

/-- How a run of `s` ends for those who have observed since `o`. -/
inductive Closes (o : Observers) (s : Session) : EStateM.Result Fault Session Unit → Prop
  | done {t : Session} (h : Told o [] t.observers) : Closes o s (.ok () t)
  | failed {e : ScriptError} {t u : Session} {o' : Observers} {words : List String}
    (hu : s.FailsIn e u) (hw : e.words? = some words)
    (h : Told o (e.cause.unmarked u.nextCompiledName? ++ words) o')
    (ht : t.observers = o'.record (.failed e)) : Closes o s (.error (.script e) t)
  | stopped {f : Fault} {t : Session} {names : List String} (hf : ∀ e, f ≠ .script e)
    (h : Told o names t.observers) : Closes o s (.error f t)

theorem FailsIn.step_before (hp : s.hasPending = true) (hstep : step s = .ok () t)
    (h : t.FailsIn e u) : s.FailsIn e u := by
  obtain ⟨⟨n, hn⟩, hfails⟩ := h
  refine ⟨⟨n + 1, ?_⟩, hfails⟩
  rw [takeSteps_succ, if_pos hp, checked_ok hstep]
  exact hn

theorem Closes.step_before {r : EStateM.Result Fault Session Unit} (hp : s.hasPending = true)
    (hstep : step s = .ok () t) (h : Closes o t r) : Closes o s r := by
  cases h with
  | done h => exact .done h
  | failed hu hw h ht => exact .failed (hu.step_before hp hstep) hw h ht
  | stopped hf h => exact .stopped hf h

/-- A step that fails is the end of a run. -/
theorem closes_of_error {f : Fault} (h : step s = .error f t)
    (hb : Broken o s.nextCompiledName? f t) :
    ∃ u, checked step s = .error f u ∧ Closes o s (.error f u) := by
  obtain ⟨names, ht, hn⟩ := hb
  unfold checked
  rw [h]
  cases f with
  | script e =>
    obtain ⟨words, hw, rfl⟩ := hn e rfl
    exact ⟨_, rfl, .failed ⟨⟨0, rfl⟩, t, h⟩ hw ht rfl⟩
  | breach b | outOfFuel => exact ⟨t, rfl, .stopped (fun e he => by cases he) ht⟩

/-- Steps keep the words in step with the list of calls, and the run ends with the first that
fails. -/
theorem closes_runPending (hv : s.Valid AbleOrBlank) (ht : s.Tracked depth) (hs : s.Attended o)
    (fuel : Nat) : Closes o s (runPending fuel s) := by
  induction fuel generalizing s with
  | zero =>
    unfold runPending
    rw [StackLang.get_bind]
    split
    · obtain ⟨words, h⟩ := hs
      exact .stopped (fun e he => by cases he) h.told
    · rename_i hp
      exact .done (hs.idle ht hv.linked (Bool.eq_false_iff.2 hp))
  | succ fuel ih =>
    rw [runPending_succ]
    split
    · rename_i hp
      have hstep := triple_step_heard ht hs s rfl
      cases hr : step s with
      | ok a u =>
        rw [hr] at hstep
        rw [checked_ok hr]
        exact (ih (valid_step hv hp hr) (tracked_step ht hv.linked hr) hstep).step_before hp hr
      | error f u =>
        rw [hr] at hstep
        obtain ⟨v, hchecked, hcloses⟩ := closes_of_error hr hstep
        rw [hchecked]
        exact hcloses
    · rename_i hp
      exact .done (hs.idle ht hv.linked (Bool.eq_false_iff.2 hp))

/-- An evaluation that is started with nothing in flight is a run of the session with the source. -/
theorem closes_processSource (hv : s.Valid AbleOrBlank) (ht : s.Tracked depth) (hm : s.mode = .run)
    (hp : s.hasPending = false) (fuel : Nat) (path source : String) :
    Closes s.observers { s with sources := s.sources ++ [.ofSource path source] }
      (processSource fuel path source s) := by
  rw [processSource_of_run (by simp [hm])]
  exact closes_runPending (valid_enqueue hv path source) ⟨ht.words, ht.idle, ht.room, ht.limit⟩
    ⟨[], ht.words_eq_nil hv.linked hp, .refl _⟩ fuel

/-- Whoever observes it, a run fails in the same session up to the observers. -/
theorem FailsIn.overheard {o' : Observers} (hst : Overheard o o' s t) (h : s.FailsIn e u) :
    ∃ observers, t.FailsIn e { u with observers } := by
  obtain ⟨⟨n, hn⟩, v, hv⟩ := h
  have hsteps := respects_takeSteps_overheard n s t hst
  rw [hn] at hsteps
  generalize hr : takeSteps n t = r at hsteps
  cases hsteps with
  | ok _ hu =>
    have hstep := respects_step_overheard u _ hu
    rw [hv] at hstep
    obtain ⟨events, -, rfl⟩ := hu
    generalize hr' : step { u with observers := o'.recordAll events } = r' at hstep
    cases hstep with
    | error _ hv' => exact ⟨_, ⟨n, hr⟩, _, hr'⟩

/-- The events of an evaluation that is started with nothing in flight are the same whoever observes
it.  Words start and end in them in a properly nested way, and all words end if the evaluation
succeeds.  If it fails, the failure is the last event, and the words that have not ended, the
innermost first, are those that the error says were running, behind the word that was called when
there was no room for the marker of its call. -/
theorem nested_events {config : Config} {moves : List Move}
    (h : play moves (ofConfig config) = .ok s) (hm : s.mode = .run) (hp : s.hasPending = false)
    (fuel : Nat) (path source : String) :
    ∃ events, Tells (processSource fuel path source) s events ∧
      match processSource fuel path source s with
      | .ok _ _ => Event.running? events = some []
      | .error (.script e) _ => ∃ before words u, events = before ++ [.failed e] ∧
        e.words? = some words ∧
        FailsIn { s with sources := s.sources ++ [.ofSource path source] } e u ∧
        Event.running? before = some (e.cause.unmarked u.nextCompiledName? ++ words)
      | .error _ _ => ∃ names, Event.running? events = some names := by
  obtain ⟨events, htells⟩ := exists_tells
    (fun _ _ => respects_processSource_overheard fuel path source) s
  have hv := valid_play (valid_ofConfig config fun _ h => by cases h) h
  have ht := tracked_play (valid_ofConfig config fun _ h => by cases h)
    (tracked_ofConfig config) h
  have hcloses := closes_processSource ((insensitive_valid _).observe .journaling hv)
    ⟨ht.words, ht.idle, ht.room, ht.limit⟩ hm hp fuel path source
  rw [htells] at hcloses
  refine ⟨events, htells, ?_⟩
  cases hr : processSource fuel path source s with
  | ok a t =>
    rw [hr] at hcloses
    cases hcloses with
    | done h => exact h.running?_eq
  | error f t =>
    rw [hr] at hcloses
    cases f with
    | script e =>
      cases hcloses with
      | failed hu hw h hfailed =>
        obtain ⟨before, rfl, hn⟩ := h
        obtain ⟨observers, hfails⟩ := hu.overheard (t := { s with
          sources := s.sources ++ [.ofSource path source] }) ⟨[], rfl, rfl⟩
        refine ⟨before, _, _, Observers.recordAll_journaling_inj ?_, hw, hfails, hn⟩
        rw [Observers.recordAll_concat]
        exact hfailed
      | stopped hf => exact (hf e rfl).elim
    | breach b =>
      cases hcloses with
      | stopped hf h => exact ⟨_, h.running?_eq⟩
    | outOfFuel =>
      cases hcloses with
      | stopped hf h => exact ⟨_, h.running?_eq⟩

/-- The error of a run, the words that it names, and those that have not ended in the journal before
the last event. -/
def failedRun? (r : EStateM.Result Fault Session Unit) :
    Option (Cause × Option (List String) × Option (List String)) :=
  match r with
  | .error (.script e) t =>
    some (e.cause, e.words?, Event.running? t.observers.journal.toList.dropLast)
  | _ => none

/-- Behind two calls of `DOWN` there is no room for the marker of the third, so the error names two
of the three that have started. -/
theorem nested_events_overflow :
    let s := ofConfig { Config.standard with maxReturnDepth := 2 }
    let source := ": DOWN RECURSE ; DOWN"
    s.mode = .run ∧ s.hasPending = false ∧ ∃ events before e t u,
      processSource 20 inputPath source s = .error (.script e) t ∧
      Tells (processSource 20 inputPath source) s events ∧ events = before ++ [.failed e] ∧
      e.cause = .returnStackOverflow 2 ∧ e.words? = some ["DOWN", "DOWN"] ∧
      FailsIn { s with sources := [.ofSource inputPath source] } e u ∧
      u.nextCompiledName? = some "DOWN" ∧
      Event.running? before = some ["DOWN", "DOWN", "DOWN"] := by
  intro s source
  have hrun : failedRun? (processSource 20 inputPath source { s with
      observers := .journaling }) =
      some (.returnStackOverflow 2, some ["DOWN", "DOWN"], some ["DOWN", "DOWN", "DOWN"]) := by
    simp only [source, processSource, enqueue]
    rw [Pending.ofSource_eq 50 (by decide)]
    decide +kernel
  have hplay : play [] s = .ok s := rfl
  obtain ⟨events, htells, hclosed⟩ := nested_events hplay rfl rfl 20 inputPath source
  rw [htells] at hrun
  cases hr : processSource 20 inputPath source s with
  | ok a t =>
    rw [hr] at hrun
    cases hrun
  | error f t =>
    rw [hr] at hrun hclosed
    cases f with
    | breach b | outOfFuel => cases hrun
    | script e =>
      obtain ⟨before, words, u, rfl, hw, hfails, hrunning⟩ := hclosed
      dsimp only [failedRun?] at hrun
      rw [Observers.journal_journaling, List.dropLast_concat, hw, hrunning] at hrun
      simp only [Option.some.injEq, Prod.mk.injEq] at hrun
      obtain ⟨hcause, rfl, hnames⟩ := hrun
      rw [hnames] at hrunning
      refine ⟨rfl, rfl, _, before, e, t, u, rfl, htells, rfl, hcause, hw, hfails, ?_, hrunning⟩
      rw [hcause] at hnames
      cases hu : u.nextCompiledName? with
      | none => simp [Cause.unmarked, hu] at hnames
      | some name => simpa [Cause.unmarked, hu] using hnames

end StackLang.Session
