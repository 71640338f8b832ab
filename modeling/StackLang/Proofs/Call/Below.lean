import StackLang.Proofs.Call.Markers
import StackLang.Proofs.Framework.Instructions
import StackLang.Proofs.Session.Steps

/-!
# What lies below a call

A word cannot look below the marker of its own call: whatever lies there, and whatever frame the
marker holds, it does the same.  Only the number of the items below counts, as part of the size of
the stack.  The frame matters when the word is left.

* `Over`: the relation between two sessions that differ in nothing else.
* `Over.running`: the same word runs side by side in both.
* `Over.alike_step`: a step does the same in both, up to the end of the call.
-/

namespace StackLang

/-- The same word runs in both sessions, and all that it can see is the same.  Under the marker of a
call lies `below` in the first session, and the marker holds `c`; in the second one these are
`below'` and `c'`. -/
def Over (c c' : Option CallFrame) (below below' : List ReturnItem) (s t : Session) : Prop :=
  ∃ above returns, s.returns.items = above ++ .call c :: below ∧
    returns.items = above ++ .call c' :: below' ∧ returns.limit = s.returns.limit ∧
    t = { s with returns }

/-- The call has ended, and its callers go on with what lay below. -/
def Behind (c c' : Option CallFrame) (below below' : List ReturnItem) (s t : Session) : Prop :=
  ∃ returns, s.frame = c ∧ s.returns.items = below ∧ returns.items = below' ∧
    returns.limit = s.returns.limit ∧ t = { s with frame := c', returns }

open Action

theorem respects_finishWord_of {R : Session → Session → Prop}
    (hmode : ∀ s t, R s t → t.mode = s.mode ∧ t.stack = s.stack)
    (hrecord : ∀ s t, R s t → ∀ e, R { s with observers := s.observers.record e }
      { t with observers := t.observers.record e }) (name : String) :
    Respects R (finishWord name) := by
  intro s t h
  have hn := hrecord s t h (.complete name s.stack)
  unfold finishWord
  rw [get_bind, get_bind, (hmode s t h).1, (hmode s t h).2]
  split
  · exact .ok () (hrecord _ _ hn (.acknowledge name))
  · exact .ok () hn

variable {c c' : Option CallFrame} {below below' : List ReturnItem} {s t : Session}

namespace Over

theorem setReturns (h : Over c c' below below' s t) {above : List ReturnItem}
    {returns returns' : ReturnStack} (hr : returns.items = above ++ .call c :: below)
    (hr' : returns'.items = above ++ .call c' :: below')
    (hl : returns'.limit = returns.limit) :
    Over c c' below below' { s with returns } { t with returns := returns' } := by
  obtain ⟨-, -, -, -, -, rfl⟩ := h
  exact ⟨above, returns', hr, hr', hl, rfl⟩

/-- There is room for another item in both sessions, or in neither of them. -/
theorem respects_pushReturn (hlen : below'.length = below.length) (item : ReturnItem) :
    Respects (Over c c' below below') (pushReturn item) := by
  rintro s t ⟨above, returns, hs, hr, hl, rfl⟩
  have hroom : (returns.push? item).isSome = (s.returns.push? item).isSome := by
    rw [ReturnStack.isSome_push?, ReturnStack.isSome_push?, hs, hr, hl]
    simp [hlen]
  unfold pushReturn
  dsimp only
  cases hps : s.returns.push? item with
  | none =>
    rw [hps, Option.isSome_none, Option.isSome_eq_false_iff, Option.isNone_iff_eq_none] at hroom
    rw [hroom]
    have he : raise (.returnStackOverflow returns.limit) { s with returns } =
        (.error (.script (s.error (.returnStackOverflow s.returns.limit))) { s with returns } :
          EStateM.Result Fault Session Unit) := by
      rw [hl]
      rfl
    rw [he]
    exact .error _ ⟨above, returns, hs, hr, hl, rfl⟩
  | some pushed =>
    rw [hps] at hroom
    obtain ⟨pushed', hpt⟩ := Option.isSome_iff_exists.1 hroom
    rw [hpt]
    refine .ok () ⟨item :: above, pushed', ?_, ?_, ?_, rfl⟩
    · exact (ReturnStack.items_of_push? hps).trans (congrArg (item :: ·) hs)
    · exact (ReturnStack.items_of_push? hpt).trans (congrArg (item :: ·) hr)
    · exact (ReturnStack.limit_of_push? hpt).trans (hl.trans (ReturnStack.limit_of_push? hps).symm)

theorem congruence (hlen : below'.length = below.length) :
    Congruence (Over c c' below below') where
  agree := by
    rintro s t ⟨above, returns, hs, hr, -, rfl⟩
    refine ⟨rfl, rfl, rfl, rfl, rfl, ?_⟩
    unfold ReturnStack.peekValue?
    rw [hs, hr]
    cases above with
    | nil => rfl
    | cons item above => cases item <;> rfl
  write := by
    rintro s t ⟨above, returns, hs, hr, hl, rfl⟩ w
    exact ⟨above, returns, hs, hr, hl, rfl⟩
  record := by
    rintro s t ⟨above, returns, hs, hr, hl, rfl⟩ e
    exact ⟨above, returns, hs, hr, hl, rfl⟩
  source := by
    refine Respects.discard ?_
    rintro s t ⟨above, returns, hs, hr, hl, rfl⟩
    unfold currentSource
    dsimp only
    split
    · exact .ok _ ⟨above, returns, hs, hr, hl, rfl⟩
    · exact .error _ ⟨above, returns, hs, hr, hl, rfl⟩
  token := by
    rintro s t ⟨above, returns, hs, hr, hl, rfl⟩
    unfold nextToken?
    dsimp only
    split
    · exact .ok _ ⟨above, returns, hs, hr, hl, rfl⟩
    · split
      · exact .ok _ ⟨above, returns, hs, hr, hl, rfl⟩
      · exact .ok _ ⟨above, returns, hs, hr, hl, rfl⟩
  setDefinition := by
    refine fun d => Respects.modify ?_
    rintro s t ⟨above, returns, hs, hr, hl, rfl⟩
    dsimp only
    split
    · exact ⟨above, returns, hs, hr, hl, rfl⟩
    · exact ⟨above, returns, hs, hr, hl, rfl⟩
  pushValue := fun v => respects_pushReturn hlen _
  popValue := by
    rintro s t h v popped hp
    obtain ⟨above, returns, hs, hr, hl, rfl⟩ := id h
    have hi := ReturnStack.items_of_popValue? hp
    cases above with
    | nil =>
      rw [hs] at hi
      cases hi
    | cons item above =>
      rw [hs, List.cons_append, List.cons.injEq] at hi
      obtain ⟨rfl, hi⟩ := hi
      obtain ⟨popped', hp', hi', hl'⟩ := ReturnStack.exists_popValue? hr
      exact ⟨popped', hp', h.setReturns hi.symm hi'
        (hl'.trans (hl.trans (ReturnStack.limit_of_popValue? hp).symm))⟩
  finishWord := by
    refine respects_finishWord_of ?_ ?_
    · rintro s t ⟨above, returns, hs, hr, hl, rfl⟩
      exact ⟨rfl, rfl⟩
    · rintro s t ⟨above, returns, hs, hr, hl, rfl⟩ e
      exact ⟨above, returns, hs, hr, hl, rfl⟩

theorem running (hlen : below'.length = below.length) : Running (Over c c' below below') where
  toCongruence := congruence hlen
  frame := by
    rintro s t ⟨above, returns, hs, hr, hl, rfl⟩
    rfl
  setFrame := by
    rintro s t ⟨above, returns, hs, hr, hl, rfl⟩ frame
    exact ⟨above, returns, hs, hr, hl, rfl⟩
  pushReturn := respects_pushReturn hlen
  loop? := by
    rintro s t ⟨above, returns, hs, hr, hl, rfl⟩ depth
    unfold ReturnStack.loop?
    rw [hs, hr, ReturnStack.loopsOf_above above c c' below below']
  replaceLoop := by
    rintro s t h frame
    obtain ⟨above, returns, hs, hr, hl, rfl⟩ := id h
    obtain ⟨above', ha⟩ := ReturnStack.exists_setLoop_above above frame
    have hs' := (congrArg (ReturnStack.setLoop frame) hs).trans (ha c below)
    have hr' := (congrArg (ReturnStack.setLoop frame) hr).trans (ha c' below')
    exact h.setReturns hs' hr' hl
  dropLoop := by
    rintro s t h
    obtain ⟨above, returns, hs, hr, hl, rfl⟩ := id h
    rcases ReturnStack.takeLoop?_above above with hn | ⟨x, above', ha⟩
    · have hps := ReturnStack.popLoop?_eq_none (hs ▸ hn c below)
      have hpt := ReturnStack.popLoop?_eq_none (hr ▸ hn c' below')
      dsimp only
      rw [hps, hpt]
      exact ⟨rfl, h⟩
    · obtain ⟨popped, hps, hi, hlp⟩ := ReturnStack.exists_popLoop? (hs ▸ ha c below)
      obtain ⟨popped', hpt, hi', hlp'⟩ := ReturnStack.exists_popLoop? (hr ▸ ha c' below')
      dsimp only
      rw [hps, hpt]
      exact ⟨rfl, h.setReturns hi hi' (hlp'.trans (hl.trans hlp.symm))⟩

end Over

/-! ## The end of the call -/

theorem Behind.respects_finishWord (name : String) :
    Respects (Behind c c' below below') (finishWord name) := by
  refine respects_finishWord_of ?_ ?_ name
  · rintro s t ⟨returns, hf, hi, hr, hl, rfl⟩
    exact ⟨rfl, rfl⟩
  · rintro s t ⟨returns, hf, hi, hr, hl, rfl⟩ e
    exact ⟨returns, hf, hi, hr, hl, rfl⟩

namespace Over

variable (h : Over c c' below below' s t)
include h

/-- Leaving a word leads back to a caller above the marker, or to the one that it holds. -/
theorem alike_leaveWord (hlen : below'.length = below.length) (frame : CallFrame) :
    Alike (fun s t => Over c c' below below' s t ∨ Behind c c' below below' s t)
      (leaveWord frame s) (leaveWord frame t) := by
  obtain ⟨above, returns, hs, hr, hl, rfl⟩ := id h
  rw [Session.leaveWord_eq, Session.leaveWord_eq]
  rcases ReturnStack.unwind_above above with hu | ⟨caller, above', hu⟩
  · obtain ⟨depth, hus⟩ := hu c below s.returns.depth
    obtain ⟨depth', hur⟩ := hu c' below' returns.depth
    obtain ⟨popped, hps, hi, hlp⟩ := ReturnStack.exists_exitCall (hs ▸ hus)
    obtain ⟨popped', hpr, hi', hlp'⟩ := ReturnStack.exists_exitCall (hr ▸ hur)
    dsimp only
    rw [hps, hpr]
    refine Alike.mono (Behind.respects_finishWord frame.name _ _ ?_) fun _ _ h => .inr h
    exact ⟨popped', rfl, hi, hi', hlp'.trans (hl.trans hlp.symm), rfl⟩
  · obtain ⟨depth, hus⟩ := hu c below s.returns.depth
    obtain ⟨depth', hur⟩ := hu c' below' returns.depth
    obtain ⟨popped, hps, hi, hlp⟩ := ReturnStack.exists_exitCall (hs ▸ hus)
    obtain ⟨popped', hpr, hi', hlp'⟩ := ReturnStack.exists_exitCall (hr ▸ hur)
    dsimp only
    rw [hps, hpr]
    refine Alike.mono ((congruence hlen).finishWord frame.name _ _ ?_) fun _ _ h => .inl h
    exact ⟨above', popped', hi, hi', hlp'.trans (hl.trans hlp.symm), rfl⟩

theorem alike_operation (hlen : below'.length = below.length) :
    Alike (fun s t => Over c c' below below' s t ∨ Behind c c' below below' s t)
      (operation s) (operation t) :=
  (running hlen).alike_operation (fun _ _ h => .inl h)
    (fun frame _ _ h => h.alike_leaveWord hlen frame) h

theorem callDepth (hm : ReturnStack.markers below' = ReturnStack.markers below) :
    t.callDepth = s.callDepth := by
  obtain ⟨above, returns, hs, hr, -, rfl⟩ := h
  unfold Session.callDepth
  rw [hs, hr, ReturnStack.markers_append, ReturnStack.markers_append, ReturnStack.markers, hm]
  rfl

theorem lt_callDepth : ReturnStack.markers below + 1 ≤ s.callDepth := by
  obtain ⟨above, returns, hs, -, -, -⟩ := h
  unfold Session.callDepth
  rw [hs]
  exact ReturnStack.markers_above above c below

end Over

/-! ## Steps -/

/-- Sources are dropped in two sessions alike if their sources are the same, and a word runs in both
or in neither of them. -/
theorem alike_dropUsedSources_of {R : Session → Session → Prop} (h : R s t)
    (hf : t.frame.isNone = s.frame.isNone) (hs : t.sources = s.sources)
    (hset : ∀ sources, R { s with sources } { t with sources })
    (hraise : ∀ location cause, Alike R ((raise cause : Action Unit) { s with location })
      ((raise cause : Action Unit) { t with location })) :
    Alike R (dropUsedSources s) (dropUsedSources t) := by
  unfold dropUsedSources
  rw [get_bind, get_bind, hf, congrArg unusedSources hs]
  split
  · cases unusedSources s.sources with
    | ok sources => exact .ok () (hset sources)
    | error d => exact hraise (some d.location) d.unclosed
  · exact .ok () h

/-- A step does the same in both sessions, whatever lies below the marker. -/
theorem Over.alike_step (h : Over c c' below below' s t) (hlen : below'.length = below.length)
    (hc : c'.isNone = c.isNone) :
    Alike (fun s t => Over c c' below below' s t ∨ Behind c c' below below' s t)
      (step s) (step t) := by
  have hcancelled : t.cancelled = s.cancelled := by
    obtain ⟨-, returns, -, -, -, rfl⟩ := h
    rfl
  cases hs : s.cancelled with
  | true =>
    rw [Session.step_of_cancelled hs, Session.step_of_cancelled (hcancelled.trans hs),
      ((congruence hlen).agree h).error]
    exact .error _ (.inl h)
  | false =>
    rw [Session.step_of_running hs, Session.step_of_running (hcancelled.trans hs)]
    refine (h.alike_operation hlen).bind (fun _ s t h => ?_) fun _ _ h => h
    rcases h with h | h
    · obtain ⟨above, returns, hs, hr, hl, rfl⟩ := id h
      exact alike_dropUsedSources_of (.inl h) rfl rfl
        (fun _ => .inl ⟨above, returns, hs, hr, hl, rfl⟩)
        fun _ _ => .error _ (.inl ⟨above, returns, hs, hr, hl, rfl⟩)
    · obtain ⟨returns, hf, hi, hr, hl, rfl⟩ := id h
      exact alike_dropUsedSources_of (.inr h) (hc.trans (congrArg _ hf.symm)) rfl
        (fun _ => .inr ⟨returns, hf, hi, hr, hl, rfl⟩)
        fun _ _ => .error _ (.inr ⟨returns, hf, hi, hr, hl, rfl⟩)

end StackLang
