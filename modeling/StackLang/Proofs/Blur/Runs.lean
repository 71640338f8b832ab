import StackLang.Proofs.Blur.Steps
import StackLang.Proofs.Session.Moves

/-!
# Runs of sessions that look alike

The same tokens, but for what a blur makes alike, are read in two sessions.  A step of one of them
is a step of the other, so their runs take the same number of steps and end alike.

* `tracks_step`: one step, with the sources that it uses up.
* `Near.abort`: an error leaves sessions behind that look alike.
* `tracks_runPending`: a run, for any amount of fuel.
-/

namespace StackLang

namespace Near

variable {b : Blur} {s t : Session} (h : Near b [] s t)
include h

/-- No more tokens follow in the second session. -/
theorem map_sources : t.sources.map b.pending = s.sources.map b.pending := by
  rw [h.sources]
  cases s.sources <;> simp [Pending.extend]

theorem of_sources {sources sources' : List Pending}
    (hs : sources'.map b.pending = sources.map b.pending) :
    Near b [] { s with sources } { t with sources := sources' } := by
  refine { h with sources := ?_ }
  rw [show List.map b.pending ({ t with sources := sources' } : Session).sources = _ from hs]
  cases sources <;> simp [Pending.extend]

theorem hasPending : t.hasPending = s.hasPending := by
  have hf := congrArg Option.isSome h.frame
  have hs := congrArg List.isEmpty h.map_sources
  rw [Option.isSome_map, Option.isSome_map] at hf
  rw [List.isEmpty_map, List.isEmpty_map] at hs
  rw [Session.hasPending, Session.hasPending, hf, hs]

theorem openWords : t.openWords = s.openWords := by
  have hwords (sources : List Pending) :
      (sources.map b.pending).filterMap (fun p => p.definition.map (·.word)) =
        sources.filterMap fun p => p.definition.map (·.word) := by
    rw [List.filterMap_map]
    refine congrArg (List.filterMap · sources) (funext fun p => ?_)
    rw [Function.comp_apply, Blur.pending, Option.map_map]
    rfl
  unfold Session.openWords
  rw [← hwords, h.map_sources, hwords]

/-- The evaluation in flight is dropped in both sessions. -/
theorem abort {e e' : ScriptError} (he : b.error e' = b.error e) :
    Near b [] (s.abort e) (t.abort e') := by
  have hc : b.cause e'.cause = b.cause e.cause := congrArg ScriptError.cause he
  have hcancelled (c : Cause) : (c != .cancelled) = (b.cause c != .cancelled) := by
    cases c <;> rfl
  refine { h with
    builtin := rfl
    cancelled := ?_
    returns := ?_
    calls := rfl
    dictionary := ?_
    frame := rfl
    sources := rfl }
  · show (t.cancelled && e'.cause != .cancelled) = (s.cancelled && e.cause != .cancelled)
    rw [h.cancelled, hcancelled, hc, ← hcancelled]
  · show b.returns t.returns.clear = b.returns s.returns.clear
    rw [← b.clear_returns, ← b.clear_returns, h.returns]
  · unfold Session.abort
    rw [h.openWords]
    cases s.openWords.min? with
    | none => exact h.dictionary
    | some word =>
      dsimp only
      rw [← b.forgetBackTo_dictionary, ← b.forgetBackTo_dictionary, h.dictionary]

end Near

namespace Blur

open Action

variable {b : Blur} {α : Type} {V : α → α → Prop}

/-! ## The end of a source -/

theorem isExhausted_pending (p : Pending) : (b.pending p).isExhausted = p.isExhausted := by
  simp [Pending.isExhausted, pending]

theorem unusedSources_pending (sources : List Pending) :
    unusedSources (sources.map b.pending) = match unusedSources sources with
      | .ok kept => .ok (kept.map b.pending)
      | .error d => .error (b.definition d) := by
  induction sources with
  | nil => rfl
  | cons p rest ih =>
    rw [List.map_cons, unusedSources, unusedSources, isExhausted_pending, ih]
    split
    · rw [show (b.pending p).definition = p.definition.map b.definition from rfl]
      cases p.definition <;> rfl
    · rfl

theorem tracks_dropUsedSources : b.Tracks [] Eq dropUsedSources dropUsedSources := by
  intro s t h
  unfold dropUsedSources
  rw [get_bind, get_bind]
  have hf := congrArg Option.isNone h.frame
  rw [Option.isNone_map, Option.isNone_map] at hf
  rw [hf]
  split
  · have hu := b.unusedSources_pending t.sources
    rw [h.map_sources, b.unusedSources_pending] at hu
    cases hs : unusedSources s.sources with
    | ok kept =>
      cases ht : unusedSources t.sources with
      | error d' =>
        rw [hs, ht] at hu
        cases hu
      | ok kept' =>
        rw [hs, ht] at hu
        exact .ok rfl (h.of_sources (Except.ok.inj hu).symm)
    | error d =>
      cases ht : unusedSources t.sources with
      | ok kept' =>
        rw [hs, ht] at hu
        cases hu
      | error d' =>
        rw [hs, ht] at hu
        have hd : b.definition d' = b.definition d := (Except.error.inj hu).symm
        have hl : (some d'.location).map b.place = (some d.location).map b.place :=
          congrArg (fun x : Definition => some x.location) hd
        have hunclosed : d'.unclosed = d.unclosed := by
          unfold Definition.unclosed
          rw [show d'.control = d.control from (congrArg Definition.control hd :)]
        dsimp only
        rw [hunclosed]
        exact tracks_raise rfl _ _ { h with location := hl }
  · exact .ok rfl h

/-! ## Steps and runs -/

/-- One step of both sessions. -/
theorem tracks_step : b.Tracks [] Eq step step := by
  refine Tracks.view fun s t h => ?_
  rw [h.cancelled]
  have hrest : b.Tracks [] Eq (do operation; dropUsedSources) (do operation; dropUsedSources) :=
    Tracks.bindSame (fun s t h => matches_operation h (.inl rfl)) fun _ => tracks_dropUsedSources
  split
  · exact tracks_raise_bind rfl _ _
  · exact hrest

theorem tracks_checked {p q : Action α} (h : b.Tracks [] V p q) :
    b.Tracks [] V (checked p) (checked q) := by
  intro s t hst
  have hp := h s t hst
  unfold checked
  revert hp
  generalize p s = r
  generalize q t = r'
  intro hp
  cases hp with
  | ok ha h => exact .ok ha h
  | lost hm => exact (hm rfl).elim
  | @error f f' s t hf h =>
    cases f with
    | script e =>
      cases f' with
      | script e' => exact .error hf (h.abort (Fault.script.inj hf))
      | breach _ | outOfFuel => cases hf
    | breach x =>
      cases f' with
      | breach x' => exact .error hf h
      | script _ | outOfFuel => cases hf
    | outOfFuel =>
      cases f' with
      | outOfFuel => exact .error hf h
      | script _ | breach _ => cases hf

/-- Runs take the same number of steps. -/
theorem tracks_runPending (fuel : Nat) : b.Tracks [] Eq (runPending fuel) (runPending fuel) := by
  induction fuel with
  | zero =>
    refine Tracks.view fun s t h => ?_
    rw [h.hasPending]
    split
    · exact fun s t h => .error rfl h
    · exact Tracks.pure rfl
  | succ fuel ih =>
    refine Tracks.view fun s t h => ?_
    rw [h.hasPending]
    split
    · exact (tracks_checked tracks_step).bindSame fun _ => ih
    · exact Tracks.pure rfl

/-- Sources with tokens that look alike are evaluated alike. -/
theorem tracks_processSource {path source source' : String}
    (h : (Token.ofSource path source').map b.token = (Token.ofSource path source).map b.token)
    (fuel : Nat) :
    b.Tracks [] Eq (processSource fuel path source) (processSource fuel path source') := by
  refine Tracks.bindSame (Tracks.modify fun s t hst => hst.of_sources ?_) fun _ => ?_
  · simp only [List.map_append, hst.map_sources, List.map_cons, List.map_nil, pending,
      Pending.ofSource, h]
  · refine Tracks.view fun s t hst => ?_
    rw [hst.mode]
    split
    · exact tracks_checked tracks_dropUsedSources
    · exact tracks_runPending fuel

end Blur

end StackLang
