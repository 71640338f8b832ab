import StackLang.Proofs.Call.Run
import StackLang.Proofs.Words.Steps

/-!
# What a move does to the dictionary

A step that fails, and a source that ends inside a definition, drop the open definition with the
entries behind it; apart from that only steps and resets change the dictionary.

* `Changed`: what a move may do to what a session knows of words.
* `changed_of_move`: every move does one of these things.
* `Visits`, `Passes`: the sessions on the way of a run.
-/

namespace StackLang

open Session

/-- What a move may do. -/
inductive Changed (s : Session) : Move → Session → Prop
  | steps {t : Session} (ht : Action.step s = .ok () t)
    (h : Turn s.nextBuiltin? s.compiledName? s.outline t.outline) : Changed s .step t
  | stays (m : Move) {t : Session} (h : t.outline = s.outline) : Changed s m t
  | fails (m : Move) {t : Session} (h : t.outline = s.outline.rolledBack) : Changed s m t
  | marks : Changed s .mark s.mark
  | resets : Changed s .reset s.reset
  | restores : Changed s .resetDefinitions s.resetDefinitions

namespace Session

open StackLang.Action

variable {s t : Session}

/-! ## The marks -/

/-- The marks do not depend on anything that an operation works on. -/
theorem lasting_marks (a b : Nat) : Lasting fun s => s.sessionMark = a ∧ s.cellMark = b where
  write := fun _ h => h
  record := fun _ h => h
  sources := fun _ h => h
  putAside := fun _ h => h
  takeBack := fun _ h => h

theorem marks_of_operation {f : Fault} (h : operation s = .error f t) :
    t.sessionMark = s.sessionMark ∧ t.cellMark = s.cellMark := by
  have ha := (lasting_marks s.sessionMark s.cellMark).congruence.alike_operation
    (fun _ _ h => h) (fun _ _ h => h) (show s.sessionMark = _ ∧ _ from ⟨rfl, rfl⟩)
  rw [h] at ha
  cases ha with
  | error _ h => exact h.2

theorem marks_of_turn {b : Option (Builtin × Option String)} {name? : Option String}
    {o o' : Outline} (h : Turn b name? o o') :
    o'.sessionMark = o.sessionMark ∧ o'.cellMark = o.cellMark := by
  cases b with
  | none =>
    cases (h : Passage _ o o') <;> exact ⟨rfl, rfl⟩
  | some found =>
    obtain ⟨w, next?⟩ := found
    cases (h : Revision next? o w o') <;> exact ⟨rfl, rfl⟩

theorem marks_of_dropUsedSources {f : Fault} (h : dropUsedSources s = .error f t) :
    t.sessionMark = s.sessionMark ∧ t.cellMark = s.cellMark := by
  unfold dropUsedSources at h
  rw [StackLang.get_bind] at h
  split at h
  · cases hu : unusedSources s.sources with
    | ok sources =>
      rw [hu] at h
      cases h
    | error d =>
      rw [hu] at h
      cases h
      exact ⟨rfl, rfl⟩
  · cases h

/-- A step that fails leaves the marks as they are. -/
theorem marks_of_step {f : Fault} (h : step s = .error f t) :
    t.sessionMark = s.sessionMark ∧ t.cellMark = s.cellMark := by
  cases hc : s.cancelled with
  | true =>
    rw [step_of_cancelled hc] at h
    cases h
    exact ⟨rfl, rfl⟩
  | false =>
    rw [step_of_running hc, bind_apply] at h
    cases hr : operation s with
    | error e u =>
      rw [hr] at h
      cases h
      exact marks_of_operation hr
    | ok a u =>
      rw [hr] at h
      have hu : u.sessionMark = s.sessionMark ∧ u.cellMark = s.cellMark :=
        marks_of_turn (turn_of_operation hr)
      obtain ⟨h₁, h₂⟩ := marks_of_dropUsedSources h
      exact ⟨h₁.trans hu.1, h₂.trans hu.2⟩

/-! ## Moves -/

/-- A source that is queued opens no definition. -/
theorem definition?_enqueue (s : Session) (path source : String) :
    (s.sources ++ [Pending.ofSource path source]).head?.bind (·.definition) = s.definition? := by
  unfold definition?
  cases s.sources <;> rfl

/-- What an error leaves of the outline. -/
theorem outline_abort {u : Session} (hs : s.Consistent) (hu : s.Undone u)
    (hm : u.sessionMark = s.sessionMark ∧ u.cellMark = s.cellMark) (e : ScriptError) :
    (u.abort e).outline = s.outline.rolledBack := by
  have hd : (u.abort e).dictionary = s.outline.rolledBack.dictionary := by
    rw [dictionary_abort, hu.cut]
    cases hd : s.definition? with
    | none => simp [Outline.rolledBack, outline, hd, hs.cut_of_none hd]
    | some d => simp [Outline.rolledBack, outline, hd, hs.cut_of_some hd]
  unfold outline
  rw [hd]
  simp [abort, Outline.rolledBack, outline, hu.cells, hm.1, hm.2, definition?, ReturnStack.clear,
    ReturnStack.empty, ReturnStack.callers]

/-- An error leaves nothing in flight. -/
theorem outline_of_error {m : Move} {e : ScriptError} (hs : s.Valid AbleOrBlank)
    (h : m.run s = .error (.script e) t) :
    t.outline = s.outline.rolledBack ∧ t.sources = [] := by
  rcases error_of_move h with ⟨-, h⟩ | ⟨-, h⟩
  · obtain ⟨u, hu, ht⟩ := error_of_checked h
    obtain rfl := ht e rfl
    exact ⟨outline_abort hs.toConsistent (undone_step hs hu) (marks_of_step hu) e, rfl⟩
  · obtain ⟨u, hu, ht⟩ := error_of_checked h
    obtain rfl := ht e rfl
    have hundone := (undone_dropUsedSources hs.toConsistent hu).2.2
    exact ⟨outline_abort hs.toConsistent hundone (marks_of_dropUsedSources hu) e, rfl⟩

theorem changed_of_error {m : Move} {e : ScriptError} (hs : s.Valid AbleOrBlank)
    (h : m.run s = .error (.script e) t) : Changed s m t :=
  .fails m (outline_of_error hs h).1

theorem changed_of_ok {m : Move} (hs : s.Valid AbleOrBlank) (h : m.run s = .ok () t) :
    Changed s m t := by
  cases m with
  | enqueue path source =>
    cases h
    exact .stays _
      (outline_ahead (definition?_enqueue s path source) s.stack s.cells s.dictionary)
  | dropUsedSources =>
    exact .stays _ (outline_dropUsedSources hs.toConsistent (eq_ok_of_checked h))
  | step =>
    rcases step_of_run_step h with ⟨-, h⟩ | ⟨-, rfl⟩
    · exact .steps h (turn_of_step hs h)
    · exact .stays _ rfl
  | setMode mode | setCancelled cancelled | observe observers | takeOutput =>
    cases h
    exact .stays _ rfl
  | mark =>
    cases h
    exact .marks
  | reset =>
    cases h
    exact .resets
  | resetDefinitions =>
    cases h
    exact .restores

/-- A step of a valid session has all the fuel it needs. -/
theorem ne_outOfFuel_of_step (hs : s.Valid AbleOrBlank) (h : step s = .error .outOfFuel t) :
    False := by
  by_cases ha : Able s.frame
  · have hv : s.Valid Able := hs.mono fun _ => ha
    by_cases hc : s.CallsHidden
    · have := triple_step_hidden s ⟨hv, hc⟩
      rwa [h] at this
    · have := triple_step s ⟨hv, hc⟩
      rwa [h] at this
  · obtain ⟨f, hf, hb⟩ := exists_blank hs.running ha
    cases hc : s.cancelled with
    | true =>
      rw [step_of_cancelled hc] at h
      cases h
    | false =>
      rw [step_blank hf hb hc] at h
      cases h

theorem ne_outOfFuel_of_move {m : Move} (hs : s.Valid AbleOrBlank)
    (h : m.run s = .error .outOfFuel t) : False := by
  by_cases hm : m = .step
  · subst hm
    obtain h : (stepOnce >>= fun _ => pure ()) s = .error .outOfFuel t := h
    rw [bind_apply, stepOnce_eq] at h
    split at h
    · cases h
    · rename_i e u hu
      cases h
      split at hu
      · unfold checked at hu
        cases hr : step s with
        | ok a v =>
          rw [hr] at hu
          cases hu
        | error f v =>
          rw [hr] at hu
          cases f with
          | script e => cases hu
          | breach b => cases hu
          | outOfFuel => exact ne_outOfFuel_of_step hs hr
      · cases hu
  · have := triple_move (φ := AbleOrBlank) hm nofun s hs
    rwa [h] at this

/-- What a move does to what a session knows of words. -/
theorem changed_of_move {m : Move} (hs : s.Valid AbleOrBlank) (h : remains (m.run s) = .ok t) :
    Changed s m t := by
  cases hr : m.run s with
  | ok a u =>
    rw [hr] at h
    cases h
    exact changed_of_ok hs hr
  | error f u =>
    rw [hr] at h
    cases f with
    | script e =>
      cases h
      exact changed_of_error hs hr
    | breach b => cases h
    | outOfFuel => exact (ne_outOfFuel_of_move hs hr).elim

end Session

/-! ## Runs -/

/-- Some of the moves, from the first on, lead from `s` to `t`. -/
def Visits (moves : List Move) (s t : Session) : Prop :=
  ∃ before after, moves = before ++ after ∧ play before s = .ok t

/-- On the way of the moves from `s`, the move `m` leads from `t` to `u`. -/
def Passes (moves : List Move) (s : Session) (m : Move) (t u : Session) : Prop :=
  ∃ before after, moves = before ++ m :: after ∧ play before s = .ok t ∧
    Action.remains (m.run t) = .ok u

variable {moves more : List Move} {m : Move} {s t u : Session}

theorem Visits.ending (h : play moves s = .ok t) : Visits moves s t :=
  ⟨moves, [], (List.append_nil moves).symm, h⟩

theorem play_append_of_ok (h : play moves s = .ok t) :
    play (moves ++ more) s = play more t := by
  rw [play_append, h]

theorem Passes.before (h : Passes moves s m t u) : Visits moves s t := by
  obtain ⟨before, after, rfl, ht, -⟩ := h
  exact ⟨before, m :: after, rfl, ht⟩

theorem Passes.after (h : Passes moves s m t u) : Visits moves s u := by
  obtain ⟨before, after, rfl, ht, hu⟩ := h
  refine ⟨before ++ [m], after, by simp, ?_⟩
  rw [play_append_of_ok ht, play_singleton, hu]

/-- What holds of no moves at all, and of one more move if it holds of those before it, holds of
the whole run. -/
theorem play_induct {P : List Move → Session → Prop} (start : P [] s)
    (kept : ∀ done m u v, play done s = .ok u → Action.remains (m.run u) = .ok v → P done u →
      P (done ++ [m]) v) (h : play moves s = .ok t) : P moves t := by
  -- The moves are made from the first on, so those that are done go to the other side.
  have main (rest : List Move) : ∀ (done : List Move) (u : Session), done ++ rest = moves →
      play done s = .ok u → P done u → play rest u = .ok t → P moves t := by
    induction rest with
    | nil =>
      intro done u hd _ hu ht
      cases ht
      rw [List.append_nil] at hd
      exact hd ▸ hu
    | cons m rest ih =>
      intro done u hd hu hP ht
      rw [play] at ht
      cases hm : Action.remains (m.run u) with
      | error b =>
        rw [hm] at ht
        cases ht
      | ok v =>
        rw [hm] at ht
        refine ih (done ++ [m]) v (by simp [← hd]) ?_ (kept done m u v hu hm hP) ht
        rw [play_append_of_ok hu, play_singleton, hm]
  exact main moves [] s rfl rfl start h

/-- What holds at the start and is kept by each move on the way holds everywhere on the way. -/
theorem Visits.induct {P : Session → Prop} (ht : Visits moves s t) (hs : P s)
    (kept : ∀ m u v, Passes moves s m u v → P u → P v) : P t := by
  obtain ⟨before, after, rfl, ht⟩ := ht
  refine (play_induct (P := fun done u => (∃ rest, done ++ rest = before) → P u) (fun _ => hs)
    (fun done m u v hu hm hP hd => ?_) ht) ⟨[], List.append_nil before⟩
  obtain ⟨rest, rfl⟩ := hd
  exact kept m u v ⟨done, rest ++ after, by simp, hu, hm⟩ (hP ⟨m :: rest, by simp⟩)

/-! ## Parts of runs -/

/-- What is visited from the end of a run is visited from its start. -/
theorem Visits.of_play (h : play moves s = .ok t) (hu : Visits more t u) :
    Visits (moves ++ more) s u := by
  obtain ⟨before, after, rfl, hu⟩ := hu
  exact ⟨moves ++ before, after, by simp, (play_append_of_ok h).trans hu⟩

/-- A step that succeeds leads on to what is visited behind it. -/
theorem Visits.of_step {v : Session} (h : play moves s = .ok t) (hp : t.hasPending = true)
    (hu : Action.step t = .ok () u) (hv : Visits more u v) :
    Visits (moves ++ .step :: more) s v := by
  have hstep : Action.remains (Move.step.run t) = .ok u := by
    rw [run_step, stepOnce_eq, if_pos hp, Action.checked_ok hu]
    rfl
  have hplay : play (moves ++ [.step]) s = .ok u := by
    rw [play_append_of_ok h, play_singleton, hstep]
  have hvisits := hv.of_play hplay
  rwa [List.append_assoc] at hvisits

theorem Visits.append (h : Visits moves s t) (more : List Move) : Visits (moves ++ more) s t := by
  obtain ⟨before, after, rfl, ht⟩ := h
  exact ⟨before, after ++ more, by simp, ht⟩

theorem Passes.of_play {v : Session} (h : play moves s = .ok t) (hp : Passes more t m u v) :
    Passes (moves ++ more) s m u v := by
  obtain ⟨before, after, rfl, hu, hv⟩ := hp
  exact ⟨moves ++ before, after, by simp, (play_append_of_ok h).trans hu, hv⟩

theorem Passes.append (h : Passes moves s m t u) (more : List Move) :
    Passes (moves ++ more) s m t u := by
  obtain ⟨before, after, rfl, ht, hu⟩ := h
  exact ⟨before, after ++ more, by simp, ht, hu⟩

/-- With one more move, only the session that it leads to is visited, too. -/
theorem visits_snoc (h : play moves s = .ok t) (hm : Action.remains (m.run t) = .ok u) {v : Session}
    (hv : Visits (moves ++ [m]) s v) : Visits moves s v ∨ v = u := by
  obtain ⟨before, after, ha, hv⟩ := hv
  rcases List.eq_nil_or_concat after with rfl | ⟨after, m', rfl⟩
  · rw [List.append_nil] at ha
    rw [← ha, play_append_of_ok h, play_singleton, hm] at hv
    cases hv
    exact .inr rfl
  · rw [List.concat_eq_append, ← List.append_assoc] at ha
    obtain ⟨rfl, -⟩ := List.append_inj' ha rfl
    exact .inl ⟨before, after, rfl, hv⟩

/-- Every session on the way of moves from a valid one is valid. -/
theorem Visits.valid (hs : s.Valid AbleOrBlank) (h : Visits moves s t) : t.Valid AbleOrBlank :=
  h.induct hs fun _ _ _ hp hv => by
    obtain ⟨-, -, -, -, hm⟩ := hp
    exact valid_move hv hm

theorem valid_of_visits {config : Config} (h : Visits moves (ofConfig config) t) :
    t.Valid AbleOrBlank :=
  h.valid (valid_ofConfig config fun _ h => by cases h)

end StackLang
