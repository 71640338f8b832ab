import StackLang.Proofs.Session.Steps
import StackLang.Session.Evaluate

/-!
# Moves

What can be done to a session from outside.  An evaluation is a number of moves with the session at
rest in between, and an error of a script drops the evaluation, so after a script error the caller
goes on with a session like any other; only a breach is the end.

* `Move.run`, `play`: single moves, and sequences of them.
* `Request.run`, `perform`: the calls of an embedder.
* `exists_play_eq_perform`: every sequence of calls is a sequence of moves.
* `exists_play_of_perform`: and which moves it is made of.
* `failsInMove_request`: a call that fails does so in one of its moves.
-/

namespace StackLang

/-- What is done to a session in one go. -/
inductive Move where
  | enqueue (path source : String)
  | dropUsedSources
  | step
  | setMode (mode : Mode)
  | setCancelled (cancelled : Bool)
  | observe (observers : Observers)
  | takeOutput
  | mark
  | reset
  | resetDefinitions

/-- What an embedder asks of a session: an evaluation, or a single move. -/
inductive Request where
  | evaluate (source : String)
  | processSource (path source : String)
  | move (m : Move)

open Action

def Move.run : Move → Action Unit
  | enqueue path source => Action.enqueue path source
  | dropUsedSources => checked Action.dropUsedSources
  | step => discard stepOnce
  | setMode mode => modify ({ · with mode })
  | setCancelled cancelled => modify ({ · with cancelled })
  | observe observers => modify ({ · with observers })
  | takeOutput => modify fun s => s.takeOutput.2
  | mark => modify Session.mark
  | reset => modify Session.reset
  | resetDefinitions => modify Session.resetDefinitions

/-- Fulfil a request, with an amount of fuel if it is an evaluation. -/
def Request.run (fuel : Nat) : Request → Action Unit
  | evaluate source => Action.evaluate fuel source
  | processSource path source => Action.processSource fuel path source
  | move m => m.run

/-- The session that the caller goes on with, unless a rule of the machine was broken. -/
def Action.remains {α : Type} : EStateM.Result Fault Session α → Except Breach Session
  | .ok _ s => .ok s
  | .error (.script _) s => .ok s
  | .error (.breach b) _ => .error b
  | .error .outOfFuel s => .ok s

/-- Make one move after the other. -/
def play : List Move → Session → Except Breach Session
  | [], s => .ok s
  | m :: moves, s =>
    match remains (m.run s) with
    | .ok t => play moves t
    | .error b => .error b

/-- Fulfil one request after the other. -/
def perform (fuel : Nat) : List Request → Session → Except Breach Session
  | [], s => .ok s
  | r :: requests, s =>
    match remains (r.run fuel s) with
    | .ok t => perform fuel requests t
    | .error b => .error b

theorem play_append (before after : List Move) (s : Session) :
    play (before ++ after) s = match play before s with
      | .ok t => play after t
      | .error b => .error b := by
  induction before generalizing s with
  | nil => rfl
  | cons m before ih =>
    rw [List.cons_append, play, play]
    cases remains (m.run s) with
    | ok t => exact ih t
    | error b => rfl

theorem eq_ok_of_toOption {ε α : Type} {x : Except ε α} {a : α} (h : x.toOption = some a) :
    x = .ok a := by
  cases x with
  | error e => cases h
  | ok b =>
    cases h
    rfl

theorem play_singleton (m : Move) (s : Session) : play [m] s = remains (m.run s) := by
  rw [play]
  cases remains (m.run s) <;> rfl

/-! ## Evaluations are sequences of moves -/

/-- Whatever the session is, the action does what some moves do, each of which has `ok`. -/
def Action.Played {α : Type} (ok : Move → Prop) (p : Action α) : Prop :=
  ∀ s, ∃ moves, (∀ m ∈ moves, ok m) ∧ play moves s = remains (p s)

/-- The moves that an evaluation is made of have `ok`. -/
structure Move.Evaluating (ok : Move → Prop) : Prop where
  enqueue : ∀ path source, ok (.enqueue path source)
  dropUsedSources : ok .dropUsedSources
  step : ok .step

variable {ok : Move → Prop}

namespace Action.Played

variable {α β : Type}

theorem move {p : Action α} (m : Move) (hm : ok m) (h : ∀ s, remains (m.run s) = remains (p s)) :
    Played ok p :=
  fun s => ⟨[m], by simpa using hm, (play_singleton m s).trans (h s)⟩

theorem pure (a : α) : Played ok (Pure.pure a : Action α) :=
  fun _ => ⟨[], nofun, rfl⟩

theorem bind {p : Action α} {q : α → Action β} (hp : Played ok p) (hq : ∀ a, Played ok (q a)) :
    Played ok (p >>= q) := by
  intro s
  obtain ⟨before, hb, hp⟩ := hp s
  rw [bind_apply]
  cases hr : p s with
  | ok a t =>
    obtain ⟨after, ha, hq⟩ := hq a t
    refine ⟨before ++ after, fun m hm => (List.mem_append.1 hm).elim (hb m) (ha m), ?_⟩
    rw [play_append, hp, hr]
    exact hq
  | error f t =>
    refine ⟨before, hb, ?_⟩
    rw [hp, hr]
    cases f <;> rfl

theorem view {q : Session → Action β} (h : ∀ s, Played ok (q s)) : Played ok (get >>= q) :=
  fun s => h s s

end Action.Played

theorem play_step {s : Session} (h : s.hasPending = true) :
    play [.step] s = remains (checked step s) := by
  rw [play_singleton]
  show remains ((stepOnce >>= fun _ => pure ()) s) = _
  rw [bind_apply, Session.stepOnce_eq, if_pos h]
  cases checked step s with
  | ok a t => rfl
  | error f t => cases f <;> rfl

theorem played_runPending (hok : ok .step) (fuel : Nat) : Played ok (runPending fuel) := by
  induction fuel with
  | zero =>
    refine Played.view fun s t => ⟨[], nofun, ?_⟩
    split <;> rfl
  | succ fuel ih =>
    intro s
    unfold runPending
    rw [StackLang.get_bind]
    split
    · rename_i h
      have hs := play_step h
      rw [bind_apply]
      cases hr : checked step s with
      | ok a t =>
        obtain ⟨moves, hm, ht⟩ := ih t
        refine ⟨[.step] ++ moves, by simpa using ⟨hok, hm⟩, ?_⟩
        rw [play_append, hs, hr]
        exact ht
      | error f t =>
        refine ⟨[.step], by simpa using hok, ?_⟩
        rw [hs, hr]
    · exact Played.pure () s

theorem played_processSource (hok : Move.Evaluating ok) (fuel : Nat) (path source : String) :
    Played ok (processSource fuel path source) := by
  refine (Played.move (.enqueue path source) (hok.enqueue path source) fun _ => rfl).bind
    fun _ => Played.view fun s => ?_
  split
  · exact Played.move .dropUsedSources hok.dropUsedSources fun _ => rfl
  · exact played_runPending hok.step fuel

theorem played_request (hok : Move.Evaluating ok) (fuel : Nat) (r : Request)
    (hr : ∀ m, r = .move m → ok m) : Played ok (r.run fuel) := by
  cases r with
  | evaluate source => exact played_processSource hok fuel inputPath source
  | processSource path source => exact played_processSource hok fuel path source
  | move m => exact Played.move m (hr m rfl) fun _ => rfl

/-- A sequence of requests is one of moves, each a part of an evaluation or asked for. -/
theorem exists_play_of_perform (hok : Move.Evaluating ok) (fuel : Nat) (requests : List Request)
    (h : ∀ m, .move m ∈ requests → ok m) (s : Session) :
    ∃ moves, (∀ m ∈ moves, ok m) ∧ play moves s = perform fuel requests s := by
  induction requests generalizing s with
  | nil => exact ⟨[], nofun, rfl⟩
  | cons r requests ih =>
    obtain ⟨before, hb, hp⟩ := played_request hok fuel r
      (fun m hm => h m (hm ▸ List.mem_cons_self)) s
    rw [perform, ← hp]
    cases hr : play before s with
    | ok t =>
      obtain ⟨after, ha, hq⟩ := ih (fun m hm => h m (List.mem_cons_of_mem _ hm)) t
      refine ⟨before ++ after, fun m hm => (List.mem_append.1 hm).elim (hb m) (ha m), ?_⟩
      rw [play_append, hr]
      exact hq
    | error b => exact ⟨before, hb, hr⟩

theorem exists_play_eq_perform (fuel : Nat) (requests : List Request) (s : Session) :
    ∃ moves, play moves s = perform fuel requests s := by
  have hok : Move.Evaluating fun _ => True := ⟨fun _ _ => trivial, trivial, trivial⟩
  obtain ⟨moves, -, h⟩ := exists_play_of_perform hok fuel requests (fun _ _ => trivial) s
  exact ⟨moves, h⟩

/-! ## Single moves -/

theorem eq_ok_of_checked {α : Type} {p : Action α} {s t : Session} {a : α}
    (h : checked p s = .ok a t) : p s = .ok a t := by
  unfold checked at h
  cases hp : p s with
  | ok b u =>
    rw [hp] at h
    exact h
  | error e u =>
    rw [hp] at h
    cases e <;> cases h

/-- A move that is a step takes one if something is in flight. -/
theorem step_of_run_step {s t : Session} (h : Move.step.run s = .ok () t) :
    s.hasPending = true ∧ step s = .ok () t ∨ s.hasPending = false ∧ t = s := by
  obtain ⟨more, u, hu, ht⟩ := exists_of_bind h
  cases ht
  rw [Session.stepOnce_eq] at hu
  split at hu
  · rename_i hp
    cases hc : checked step s with
    | ok a v =>
      rw [hc] at hu
      cases hu
      exact .inl ⟨hp, eq_ok_of_checked hc⟩
    | error e v =>
      rw [hc] at hu
      cases hu
  · rename_i hp
    cases hu
    exact .inr ⟨Bool.eq_false_iff.2 hp, rfl⟩

/-! ## Errors of evaluations -/

/-- If the action fails before its fuel runs out, then after some moves one more fails in the same
way. -/
def Action.FailsInMove {α : Type} (p : Action α) : Prop :=
  ∀ s f t, p s = .error f t → f = .outOfFuel ∨
    ∃ moves u m, play moves s = .ok u ∧ Move.run m u = .error f t

/-- An operation that fails where its errors are dropped fails in the same way. -/
theorem error_of_checked {α : Type} {p : Action α} {s t : Session} {f : Fault}
    (h : checked p s = .error f t) :
    ∃ u, p s = .error f u ∧ ∀ e, f = .script e → t = u.abort e := by
  unfold checked at h
  cases hp : p s with
  | ok a u =>
    rw [hp] at h
    cases h
  | error f' u =>
    rw [hp] at h
    cases f' with
    | script e =>
      cases h
      refine ⟨u, rfl, ?_⟩
      rintro e' ⟨⟩
      rfl
    | breach b | outOfFuel =>
      cases h
      exact ⟨t, rfl, nofun⟩

theorem error_of_stepOnce {s t : Session} {f : Fault} (h : stepOnce s = .error f t) :
    checked step s = .error f t := by
  rw [Session.stepOnce_eq] at h
  split at h
  · cases hs : checked step s with
    | ok a u =>
      rw [hs] at h
      cases h
    | error f' u =>
      rw [hs] at h
      cases h
      rfl
  · cases h

/-- Only a step and the end of a source can fail. -/
theorem error_of_move {m : Move} {s t : Session} {f : Fault} (h : m.run s = .error f t) :
    m = .step ∧ checked step s = .error f t ∨
      m = .dropUsedSources ∧ checked dropUsedSources s = .error f t := by
  cases m with
  | step =>
    rw [show Move.step.run s = (stepOnce >>= fun _ => pure ()) s from rfl, bind_apply] at h
    cases hs : stepOnce s with
    | ok a u =>
      rw [hs] at h
      cases h
    | error f' u =>
      rw [hs] at h
      cases h
      exact .inl ⟨rfl, error_of_stepOnce hs⟩
  | dropUsedSources => exact .inr ⟨rfl, h⟩
  | _ => cases h

theorem run_step_of_error {s t : Session} {f : Fault} (hp : s.hasPending = true)
    (h : checked step s = .error f t) : Move.step.run s = .error f t := by
  show (stepOnce >>= fun _ => pure ()) s = _
  rw [bind_apply, Session.stepOnce_eq, if_pos hp, h]

theorem failsInMove_runPending (fuel : Nat) : FailsInMove (runPending fuel) := by
  induction fuel with
  | zero =>
    intro s f t h
    unfold runPending at h
    rw [StackLang.get_bind] at h
    split at h <;> cases h
    exact .inl rfl
  | succ fuel ih =>
    intro s f t h
    unfold runPending at h
    rw [StackLang.get_bind] at h
    split at h
    · rename_i hp
      rw [bind_apply] at h
      cases hs : checked step s with
      | ok a u =>
        rw [hs] at h
        refine (ih u f t h).imp_right ?_
        rintro ⟨moves, v, m, hv, hm⟩
        refine ⟨.step :: moves, v, m, ?_, hm⟩
        rw [play, ← play_singleton, play_step hp, hs]
        exact hv
      | error e u =>
        rw [hs] at h
        cases h
        exact .inr ⟨[], s, .step, rfl, run_step_of_error hp hs⟩
    · cases h

theorem failsInMove_processSource (fuel : Nat) (path source : String) :
    FailsInMove (processSource fuel path source) := by
  intro s f t h
  unfold processSource at h
  rw [show enqueue path source = modify fun s => { s with
    sources := s.sources ++ [.ofSource path source] } from rfl, modify_bind,
    StackLang.get_bind] at h
  split at h
  · exact .inr ⟨[.enqueue path source], _, .dropUsedSources, rfl, h⟩
  · refine (failsInMove_runPending fuel _ f t h).imp_right ?_
    rintro ⟨moves, u, m, hu, hm⟩
    exact ⟨.enqueue path source :: moves, u, m, hu, hm⟩

theorem failsInMove_request (fuel : Nat) (r : Request) : FailsInMove (r.run fuel) := by
  cases r with
  | evaluate source => exact failsInMove_processSource fuel inputPath source
  | processSource path source => exact failsInMove_processSource fuel path source
  | move m => exact fun s f t h => .inr ⟨[], s, m, rfl, h⟩

end StackLang
