import StackLang.Proofs.Evaluation.Modes

/-!
# Every observer is told the same

What an evaluation does never depends on who observes it, so all observers are told the same events
in the same order.  How much of it they keep is up to them: the journal keeps all of it, so it shows
what the events are.

* `Observers.recordAll`: observers who are told of some events.
* `Overheard`: two sessions that differ in their observers, who have been told the same events.
* `respects_processSource_overheard`: evaluations keep that.
* `Tells`: the events that an action tells whoever observes it.
* `exists_tells`: they can be read off the journal.
-/

namespace StackLang

namespace Observers

/-- Tell the active observer of one event after the other. -/
def recordAll (o : Observers) (events : List Event) : Observers :=
  events.foldl record o

@[simp] theorem recordAll_concat (o : Observers) (events : List Event) (e : Event) :
    o.recordAll (events ++ [e]) = (o.recordAll events).record e :=
  List.foldl_append ..

/-- An empty journal. -/
def journaling : Observers :=
  none.attachJournal

theorem journal_recordAll (o : Observers) (ho : o.active = some .journal) (events : List Event) :
    (o.recordAll events).journal.toList = o.journal.toList ++ events := by
  induction events generalizing o with
  | nil => exact (List.append_nil _).symm
  | cons e events ih =>
    have hrecord : o.record e = { o with journal := o.journal.push e } := by
      unfold record
      rw [ho]
    show ((o.record e).recordAll events).journal.toList = _
    rw [hrecord, ih { o with journal := o.journal.push e } ho, Array.toList_push, List.append_assoc]
    rfl

/-- The journal keeps all events. -/
theorem journal_journaling (events : List Event) :
    (journaling.recordAll events).journal.toList = events :=
  journal_recordAll journaling rfl events

theorem recordAll_journaling_inj {events events' : List Event}
    (h : journaling.recordAll events = journaling.recordAll events') : events = events' := by
  rw [← journal_journaling events, h, journal_journaling]

end Observers

/-- The sessions differ in their observers, and those of `t` have been told the same events since
`o'` as those of `s` since `o`. -/
def Overheard (o o' : Observers) (s t : Session) : Prop :=
  ∃ events, s.observers = o.recordAll events ∧ t = { s with observers := o'.recordAll events }

theorem Overheard.eq_of_journaling {o : Observers} {s t : Session}
    (h : Overheard .journaling o s t) :
    t = { s with observers := o.recordAll s.observers.journal.toList } := by
  obtain ⟨events, ho, rfl⟩ := h
  rw [ho, Observers.journal_journaling]

namespace Action

variable {α : Type} {o o' : Observers}

theorem respects_pushReturn_overheard (item : ReturnItem) :
    Respects (Overheard o o') (pushReturn item) := by
  rintro s t ⟨events, ho, rfl⟩
  unfold pushReturn
  dsimp only
  cases s.returns.push? item with
  | none => exact .error _ ⟨events, ho, rfl⟩
  | some returns => exact .ok () ⟨events, ho, rfl⟩

theorem respects_notify_overheard (e : Event) : Respects (Overheard o o') (notify e) := by
  refine Respects.modify ?_
  rintro s t ⟨events, ho, rfl⟩
  exact ⟨events ++ [e], by simp [ho], by simp⟩

theorem respects_finishWord_overheard (name : String) :
    Respects (Overheard o o') (finishWord name) := by
  refine Respects.view ?_ fun s => (respects_notify_overheard _).bind fun _ => ?_
  · rintro s t ⟨events, -, rfl⟩
    rfl
  · split
    · exact respects_notify_overheard _
    · exact Respects.pure ()

theorem running_overheard : Running (Overheard o o') where
  agree := by
    rintro s t ⟨events, -, rfl⟩
    exact ⟨rfl, rfl, rfl, rfl, rfl, rfl⟩
  write := by
    rintro s t ⟨events, ho, rfl⟩ w
    exact ⟨events, ho, rfl⟩
  record := by
    rintro s t ⟨events, ho, rfl⟩ e
    exact ⟨events ++ [e], by simp [ho], by simp⟩
  source := by
    refine Respects.discard ?_
    rintro s t ⟨events, ho, rfl⟩
    unfold currentSource
    dsimp only
    cases hs : s.sources with
    | nil => exact .error _ ⟨events, ho, by rw [hs]⟩
    | cons source rest => exact .ok source ⟨events, ho, by rw [hs]⟩
  token := by
    rintro s t ⟨events, ho, rfl⟩
    unfold nextToken?
    dsimp only
    cases hs : s.sources with
    | nil => exact .ok none ⟨events, ho, by rw [hs]⟩
    | cons source rest =>
      dsimp only
      cases source.nextToken? with
      | none => exact .ok none ⟨events, ho, by rw [hs]⟩
      | some found => exact .ok (some found.1) ⟨events, ho, rfl⟩
  setDefinition := by
    intro d
    refine Respects.modify ?_
    rintro s t ⟨events, ho, rfl⟩
    dsimp only
    cases hs : s.sources with
    | nil => exact ⟨events, ho, by dsimp only; rw [hs]⟩
    | cons source rest => exact ⟨events, ho, rfl⟩
  pushValue := fun v => respects_pushReturn_overheard _
  popValue := by
    rintro s t ⟨events, ho, rfl⟩ v returns hr
    exact ⟨returns, hr, events, ho, rfl⟩
  finishWord := respects_finishWord_overheard
  frame := by
    rintro s t ⟨events, -, rfl⟩
    rfl
  setFrame := by
    rintro s t ⟨events, ho, rfl⟩ frame
    exact ⟨events, ho, rfl⟩
  pushReturn := respects_pushReturn_overheard
  loop? := by
    rintro s t ⟨events, -, rfl⟩ depth
    rfl
  replaceLoop := by
    rintro s t ⟨events, ho, rfl⟩ frame
    exact ⟨events, ho, rfl⟩
  dropLoop := by
    rintro s t ⟨events, ho, rfl⟩
    exact ⟨rfl, events, ho, rfl⟩

/-- Whatever is read of a session but its observers is the same. -/
theorem Respects.view_overheard {β : Type} {q : Session → Action β}
    (hq : ∀ (s : Session) (observers : Observers), q { s with observers } = q s)
    (h : ∀ s, Respects (Overheard o o') (q s)) : Respects (Overheard o o') (get >>= q) := by
  refine Respects.view ?_ h
  rintro s t ⟨events, -, rfl⟩
  exact hq s _

theorem respects_leaveWord_overheard (frame : CallFrame) :
    Respects (Overheard o o') (leaveWord frame) := by
  refine Respects.view_overheard (fun _ _ => rfl) fun s => ?_
  split
  · exact fun s t h => .error _ h
  · refine Respects.bind (Respects.modify ?_) fun _ => respects_finishWord_overheard _
    rintro s t ⟨events, ho, rfl⟩
    exact ⟨events, ho, rfl⟩

theorem respects_operation_overheard : Respects (Overheard o o') operation :=
  fun _ _ h => running_overheard.alike_operation (fun _ _ h => h) respects_leaveWord_overheard h

/-! ## Evaluations -/

theorem respects_dropUsedSources_overheard : Respects (Overheard o o') dropUsedSources := by
  rintro s t ⟨events, ho, rfl⟩
  unfold dropUsedSources
  rw [get_bind, get_bind]
  dsimp only
  split
  · cases unusedSources s.sources with
    | ok sources => exact .ok () ⟨events, ho, rfl⟩
    | error d => exact .error _ ⟨events, ho, rfl⟩
  · exact .ok () ⟨events, ho, rfl⟩

theorem respects_step_overheard : Respects (Overheard o o') step := by
  refine Respects.view_overheard (fun _ _ => rfl) fun s => ?_
  split
  · exact running_overheard.respects_raise_bind _ _
  · exact respects_operation_overheard.bind fun _ => respects_dropUsedSources_overheard

/-- The failure is told to all observers as well. -/
theorem respects_checked_overheard {p : Action α} (hp : Respects (Overheard o o') p) :
    Respects (Overheard o o') (checked p) := by
  intro s t h
  have ha := hp s t h
  unfold checked
  generalize p s = r at ha
  generalize p t = r' at ha
  cases ha with
  | ok a h => exact .ok a h
  | error f h =>
    cases f with
    | script e =>
      obtain ⟨events, ho, rfl⟩ := h
      refine .error _ ⟨events ++ [.failed e], ?_, ?_⟩
      · rw [Observers.recordAll_concat, ← ho]
        rfl
      · rw [Observers.recordAll_concat]
        rfl
    | breach b | outOfFuel => exact .error _ h

theorem respects_runPending_overheard (fuel : Nat) :
    Respects (Overheard o o') (runPending fuel) := by
  induction fuel with
  | zero =>
    refine Respects.view_overheard (fun _ _ => rfl) fun s => ?_
    split
    · exact fun s t h => .error _ h
    · exact Respects.pure ()
  | succ fuel ih =>
    refine Respects.view_overheard (fun _ _ => rfl) fun s => ?_
    split
    · exact (respects_checked_overheard respects_step_overheard).bind fun _ => ih
    · exact Respects.pure ()

theorem respects_takeSteps_overheard (steps : Nat) :
    Respects (Overheard o o') (takeSteps steps) := by
  induction steps with
  | zero => exact Respects.pure ()
  | succ steps ih =>
    refine Respects.bind (Respects.discard (Respects.view_overheard (fun _ _ => rfl) fun s => ?_))
      fun _ => ih
    split
    · refine (respects_checked_overheard respects_step_overheard).bind fun _ => ?_
      exact Respects.view_overheard (fun _ _ => rfl) fun s => Respects.pure _
    · exact Respects.pure _

theorem respects_processSource_overheard (fuel : Nat) (path source : String) :
    Respects (Overheard o o') (processSource fuel path source) := by
  refine Respects.bind (Respects.modify ?_) fun _ =>
    Respects.view_overheard (fun _ _ => rfl) fun s => ?_
  · rintro s t ⟨events, ho, rfl⟩
    exact ⟨events, ho, rfl⟩
  · split
    · exact respects_checked_overheard respects_dropUsedSources_overheard
    · exact respects_runPending_overheard fuel

/-! ## What is told -/

/-- Whoever observes the session, they are told `events`, and all else goes as it does. -/
def Tells (p : Action α) (s : Session) (events : List Event) : Prop :=
  ∀ observers, p { s with observers } = match p s with
    | .ok a t => .ok a { t with observers := observers.recordAll events }
    | .error e t => .error e { t with observers := observers.recordAll events }

/-- The journal shows what all observers are told. -/
theorem exists_tells {p : Action α} (hp : ∀ o o', Respects (Overheard o o') p) (s : Session) :
    ∃ events, Tells p s events := by
  have alike (o : Observers) :
      Alike (Overheard .journaling o) (p { s with observers := .journaling })
        (p { s with observers := o }) :=
    hp _ _ _ _ ⟨[], rfl, rfl⟩
  cases hr : p { s with observers := .journaling } with
  | ok a t =>
    have told (o : Observers) : p { s with observers := o } =
        .ok a { t with observers := o.recordAll t.observers.journal.toList } := by
      have ha := hr ▸ alike o
      generalize p { s with observers := o } = r at ha
      cases ha with
      | ok _ h => rw [h.eq_of_journaling]
    refine ⟨t.observers.journal.toList, fun o => ?_⟩
    rw [told o, show p s = _ from told s.observers]
  | error e t =>
    have told (o : Observers) : p { s with observers := o } =
        .error e { t with observers := o.recordAll t.observers.journal.toList } := by
      have ha := hr ▸ alike o
      generalize p { s with observers := o } = r at ha
      cases ha with
      | error _ h => rw [h.eq_of_journaling]
    refine ⟨t.observers.journal.toList, fun o => ?_⟩
    rw [told o, show p s = _ from told s.observers]

end Action

end StackLang
