import StackLang.Proofs.Call.Running
import StackLang.Proofs.Events.Listeners

/-!
# What observers are told of words

Observers are told when a word starts and when it ends.  A word ends within the operation that
starts it if it is built in, and otherwise in the operation that leaves it.  In between the list of
calls has an item for it, so between two operations the words that have started and not ended are
those in the list.  A word whose call finds no room on the return stack has started, but never gets
into the list.

* `Event.running?`: the words that have not ended behind some events, if the events are nested.
* `Told`: what the observers have been told is nested.
* `Heard`: the words that have not ended are those in the list of calls.
* `Broken`: what a failure leaves of that.
* `triple_operation_heard`, `triple_step_heard`: what operations and steps keep.
-/

namespace StackLang

namespace Event

/-- The words that have started and not ended behind one more event, the innermost first.  Only the
innermost word can end, and a failure comes behind all of them. -/
def nest (names : List String) : Event → Option (List String)
  | starting name _ => some (name :: names)
  | complete name _ => if names.head? = some name then some names.tail else none
  | output _ | acknowledge _ => some names
  | failed _ => none

/-- The words that have started and not ended behind the events, the innermost first, if the events
are properly nested. -/
def running? (events : List Event) : Option (List String) :=
  events.foldlM nest []

theorem running?_concat (events : List Event) (e : Event) :
    running? (events ++ [e]) = (running? events).bind (nest · e) := by
  simp [running?, List.foldlM_append]

theorem nest_complete (name : String) (names : List String) (stack : List Value) :
    nest (name :: names) (complete name stack) = some names := by
  simp [nest]

end Event

/-- Since `o`, the observers have been told of nested words, of which `names` have not ended. -/
def Told (o : Observers) (names : List String) (o' : Observers) : Prop :=
  ∃ events, o' = o.recordAll events ∧ Event.running? events = some names

/-- The word that is called, if the call found no room for its marker. -/
def Cause.unmarked (called : Option String) : Cause → List String
  | returnStackOverflow _ => called.toList
  | _ => []

/-- The name of the compiled word at an index. -/
def Dictionary.compiledName? (d : Dictionary) (index : Nat) : Option String :=
  (d.get? index).bind fun e => if e.isBuiltin then none else some e.name

theorem Cause.unmarked_none (cause : Cause) : cause.unmarked none = [] := by
  cases cause <;> rfl

theorem Definition.unmarked_unclosed (d : Definition) (called : Option String) :
    d.unclosed.unmarked called = [] := by
  unfold Definition.unclosed
  split <;> rfl

namespace Told

variable {o o' : Observers} {names names' : List String}

theorem refl (o : Observers) : Told o [] o :=
  ⟨[], rfl, rfl⟩

theorem record {e : Event} (h : Told o names o') (he : e.nest names = some names') :
    Told o names' (o'.record e) := by
  obtain ⟨events, rfl, hn⟩ := h
  refine ⟨events ++ [e], (Observers.recordAll_concat ..).symm, ?_⟩
  rw [Event.running?_concat, hn]
  exact he

/-- What the journal keeps is nested. -/
theorem running?_eq {events : List Event} (h : Told .journaling names
    (Observers.journaling.recordAll events)) : Event.running? events = some names := by
  obtain ⟨events', he, hn⟩ := h
  exact Observers.recordAll_journaling_inj he ▸ hn

end Told

namespace Session

open StackLang.Action

/-- The compiled word that the next operation calls. -/
def nextCompiledName? (s : Session) : Option String :=
  s.nextCallee?.bind s.dictionary.compiledName?

/-- The words that have not ended are those in the list of calls. -/
structure Heard (o : Observers) (words : List String) (s : Session) : Prop where
  calls : s.calls.map (·.word) = words
  told : Told o words s.observers

/-- A failure that names all the words that have not ended. -/
structure Named (o : Observers) (words : List String) (fault : Fault) (t : Session) : Prop where
  told : Told o words t.observers
  words : ∀ e, fault = .script e → e.words? = some words

/-- A failure that names the words that have not ended, but not the word `called` if there was no
room for its marker. -/
def Broken (o : Observers) (called : Option String) (fault : Fault) (t : Session) : Prop :=
  ∃ names, Told o names t.observers ∧ ∀ e, fault = .script e →
    ∃ words, e.words? = some words ∧ names = e.cause.unmarked called ++ words

/-- What is known between two operations. -/
def Attended (o : Observers) (s : Session) : Prop :=
  ∃ words, Heard o words s

variable {o : Observers} {words : List String} {called : Option String} {s t : Session}
  {f : CallFrame}

theorem Named.broken {fault : Fault} (h : Named o words fault t) : Broken o none fault t := by
  refine ⟨words, h.told, fun e he => ⟨words, h.words e he, ?_⟩⟩
  rw [Cause.unmarked_none, List.nil_append]

/-- An error that is not about the return stack names all the words that have not ended. -/
theorem Heard.broken (h : Heard o words s) {cause : Cause} (hc : cause.unmarked called = []) :
    Broken o called (.script (s.error cause)) s := by
  refine ⟨words, h.told, fun e he => ⟨words, ?_, ?_⟩⟩
  · cases he
    exact congrArg some h.calls
  · cases he
    rw [show (s.error cause).cause = cause from rfl, hc, List.nil_append]

/-- Only calls and exits are told of as the start or the end of a word. -/
theorem inWord_heard (o : Observers) (words : List String) :
    InWord (Heard o words) (Named o words) where
  fails := by
    intro s cause h
    refine ⟨h.told, fun e he => ?_⟩
    cases he
    exact congrArg some h.calls
  data := fun _ _ h => ⟨h.calls, h.told⟩
  prints := fun _ h => ⟨h.calls, h.told.record rfl⟩
  token := fun _ _ h => ⟨h.calls, h.told⟩
  putAside := fun _ h => ⟨h.calls, h.told⟩
  takeBack := fun _ h => ⟨h.calls, h.told⟩
  apart := fun _ _ _ _ _ h => ⟨h.calls, h.told⟩
  stray := fun _ _ _ h => ⟨h.told, fun _ he => by cases he⟩
  goTo := fun _ _ h => ⟨h.calls, h.told⟩
  opens := fun _ h => ⟨h.calls, h.told⟩
  advances := fun _ _ h => ⟨h.calls, h.told⟩
  closes := fun _ h => ⟨h.calls, h.told⟩
  outside := fun _ _ h => ⟨h.told, fun _ he => by cases he⟩
  ranOff := fun _ _ h => ⟨h.told, fun _ he => by cases he⟩

/-! ## Calls -/

theorem triple_finishWord_heard (name : String) {E : Fault → Session → Prop} :
    Triple (fun s => s.calls.map (·.word) = words ∧ Told o (name :: words) s.observers)
      (finishWord name) (fun _ => Heard o words) E := by
  refine Triple.view fun s => Triple.bind (Q := fun _ => Heard o words) (Triple.modify ?_)
    fun _ => ?_
  · rintro t ⟨hc, ht⟩
    exact ⟨hc, ht.record (Event.nest_complete name words s.stack)⟩
  · split
    · exact Triple.modify fun t h => ⟨h.calls, h.told.record rfl⟩
    · exact Triple.pure fun _ h => h

/-- A built-in word ends within its call. -/
theorem triple_callBuiltin_heard (name : String) (w : Builtin) :
    Triple (fun s => s.calls.map (·.word) = words ∧ Told o (name :: words) s.observers)
      (callBuiltin name w) (fun _ => Heard o words) (Named o (name :: words)) := by
  refine Triple.bind (Q := fun _ => Heard o (name :: words)) (Triple.modify ?_) fun _ => ?_
  · rintro s ⟨rfl, ht⟩
    exact ⟨rfl, ht⟩
  refine ((inWord_heard o (name :: words)).triple_builtin w).bind fun _ => ?_
  refine Triple.bind (Triple.modify fun s h => ?_) fun _ => triple_finishWord_heard name
  refine ⟨?_, h.told⟩
  rw [List.map_tail, h.calls]
  rfl

/-- A compiled word gets into the list of calls, unless there is no room for its marker. -/
theorem triple_callCompiled_heard (index : Nat) (name : String) (code : Code) :
    Triple (fun s => s.calls.map (·.word) = words ∧ Told o (name :: words) s.observers)
      (callCompiled index name code) (fun _ => Heard o (name :: words))
      (Broken o (some name)) := by
  rintro s ⟨hc, ht⟩
  rw [callCompiled_eq]
  cases s.returns.push? (.call s.frame) with
  | none =>
    refine ⟨name :: words, ht, fun e he => ⟨words, ?_, ?_⟩⟩
    · cases he
      exact congrArg some hc
    · cases he
      rfl
  | some returns => exact ⟨congrArg (name :: ·) hc, ht⟩

theorem triple_call_heard (hs : Heard o words s) (index : Nat) :
    Triple (· = s) (call index) (fun _ => Attended o)
      (Broken o (s.dictionary.compiledName? index)) := by
  refine Triple.get_bind ?_
  rintro u rfl
  unfold Dictionary.compiledName?
  cases u.dictionary.get? index with
  | none => exact triple_raise fun t ht => ht ▸ hs.broken rfl
  | some entry =>
    refine Triple.bind (Q := fun _ t => t.calls.map (·.word) = words ∧
      Told o (entry.name :: words) t.observers) (Triple.modify ?_) fun _ => ?_
    · rintro t rfl
      exact ⟨hs.calls, hs.told.record rfl⟩
    cases hb : entry.body with
    | builtin w =>
      have hbuiltin : entry.isBuiltin = true := by rw [Entry.isBuiltin, hb]
      simp only [Option.bind_some, hbuiltin, if_true]
      refine ((triple_callBuiltin_heard entry.name w).weaken fun _ _ h => h.broken).mono
        (fun _ h => h) fun _ _ h => ⟨words, h⟩
    | compiled code =>
      have hbuiltin : entry.isBuiltin = false := by rw [Entry.isBuiltin, hb]
      simp only [Option.bind_some, hbuiltin, Bool.false_eq_true, if_false]
      exact (triple_callCompiled_heard index entry.name code).mono (fun _ h => h)
        fun _ _ h => ⟨entry.name :: words, h⟩

/-- The word that is left ends. -/
theorem triple_leaveWord_heard (hs : Heard o (f.name :: words) s) :
    Triple (· = s) (leaveWord f) (fun _ => Attended o) (Broken o called) := by
  rintro t rfl
  rw [leaveWord_eq]
  cases t.returns.exitCall with
  | mk found returns =>
    cases found with
    | none => exact ⟨f.name :: words, hs.told, fun e he => by cases he⟩
    | some caller =>
      refine ((triple_finishWord_heard f.name).mono (fun _ h => h) fun _ _ h => ⟨words, h⟩) _
        ⟨?_, hs.told⟩
      rw [List.map_tail, hs.calls]
      rfl

/-! ## Steps -/

/-- The innermost of the running words is that of the frame. -/
theorem Tracked.words_eq_cons {depth : Nat} (hs : s.Tracked depth) (hf : s.frame = some f) :
    s.calls.map (·.word) = f.name :: (ReturnStack.callers s.returns.items).map (·.name) := by
  rw [hs.words, active, hf]
  rfl

theorem triple_operation_heard {depth : Nat} (ht : s.Tracked depth) (hs : s.Attended o) :
    Triple (· = s) operation (fun _ => Attended o) (Broken o s.nextCompiledName?) := by
  obtain ⟨words, hs⟩ := hs
  refine ((inWord_heard o words).quiet hs).triple_operation (fun t h => ⟨words, h⟩) ?_ ?_
    (fun t _ h => ?_) ?_
  · rintro index hindex t ⟨h, hd⟩
    rw [nextCompiledName?, hindex, Option.bind_some, ← hd]
    exact triple_call_heard h index t rfl
  · intro hn e t h
    rw [nextCompiledName?, hn]
    exact h.broken
  · obtain ⟨words, h⟩ := h
    exact ⟨words, h.calls, h.told⟩
  · intro f hf _ location
    rw [hs.calls.symm.trans (ht.words_eq_cons hf)] at hs
    exact triple_leaveWord_heard ⟨hs.calls, hs.told⟩

/-- The end of a source inside a definition has nothing to do with the return stack. -/
theorem triple_dropUsedSources_heard :
    Triple (Attended o) dropUsedSources (fun _ => Attended o) (Broken o called) := by
  rintro s ⟨words, hs⟩
  cases hf : s.frame with
  | some f =>
    rw [dropUsedSources_of_frame hf]
    exact ⟨words, hs⟩
  | none =>
    rw [dropUsedSources_of_idle hf]
    cases unusedSources s.sources with
    | ok sources => exact ⟨words, hs.calls, hs.told⟩
    | error d =>
      have hd : Heard o words { s with location := some d.location } := ⟨hs.calls, hs.told⟩
      exact hd.broken (d.unmarked_unclosed called)

/-- Behind a step the words that have not ended are those in the list of calls, and if it fails,
then those that the error names, with the called word for which there was no room. -/
theorem triple_step_heard {depth : Nat} (ht : s.Tracked depth) (hs : s.Attended o) :
    Triple (· = s) step (fun _ => Attended o) (Broken o s.nextCompiledName?) := by
  rintro t rfl
  cases hc : t.cancelled with
  | true =>
    obtain ⟨words, hs⟩ := hs
    rw [step_of_cancelled hc]
    exact hs.broken rfl
  | false =>
    rw [step_of_running hc]
    exact (triple_operation_heard ht hs).bind (fun _ => triple_dropUsedSources_heard) t rfl

end Session

end StackLang
