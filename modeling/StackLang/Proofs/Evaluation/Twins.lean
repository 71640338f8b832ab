import StackLang.Proofs.Framework.Instructions
import StackLang.Proofs.Session.Steps

/-!
# Sessions that run the same evaluation

The mode of a session, its observers and the sources at the end of the queue do not change what an
operation does.  Two sessions that differ in nothing else take the same steps, side by side, and if
the sources at the end are used up, they come to the same end.

* `Alongside`: the relation between them while a source is being evaluated.
* `Twins`: the relation between two steps, when the evaluation may have ended.
* `alike_checkedStep`: a step leads from twins to twins, or fails in both with the same error.
-/

namespace StackLang

/-- Two sessions in the middle of the same evaluation.  Behind the sources of the first there are
others in the second. -/
structure Alongside (extra : List Pending) (s t : Session) : Prop where
  waiting : s.sources ≠ []
  running : s.cancelled = false
  same : ∃ (mode : Mode) (observers : Observers),
    t = { s with mode, observers, sources := s.sources ++ extra }

/-- The sources are used up, and leave no definition open. -/
def Pending.Spent (sources : List Pending) : Prop :=
  ∀ p ∈ sources, p.isExhausted = true ∧ p.definition = none

/-- Two sessions that run the same evaluation, with used-up sources at the end of the second, or
have nothing in flight. -/
def Twins (s t : Session) : Prop :=
  (∃ extra, Pending.Spent extra ∧ Alongside extra s t) ∨
    s.frame = none ∧ s.sources = [] ∧ s.cancelled = false ∧
      ∃ (mode : Mode) (observers : Observers), t = { s with mode, observers }

open Action

namespace Alongside

variable {s t : Session} {extra : List Pending}

/-- The first source is the same in both sessions. -/
theorem exists_source (h : Alongside extra s t) : ∃ source rest rest',
    s.sources = source :: rest ∧ t.sources = source :: rest' := by
  obtain ⟨hw, -, mode, observers, rfl⟩ := h
  cases hs : s.sources with
  | nil => exact (hw hs).elim
  | cons source rest => exact ⟨source, rest, rest ++ extra, rfl, rfl⟩

/-- The first source may be replaced by another one. -/
theorem replaceSource (h : Alongside extra s t) {source source' : Pending}
    {rest rest' : List Pending} (hs : s.sources = source :: rest)
    (ht : t.sources = source :: rest') : Alongside extra
      { s with sources := source' :: rest } { t with sources := source' :: rest' } := by
  obtain ⟨-, hc, mode, observers, rfl⟩ := h
  refine ⟨List.cons_ne_nil _ _, hc, mode, observers, ?_⟩
  rw [hs, List.cons_append] at ht
  cases ht
  rfl

end Alongside

variable {extra : List Pending}

/-- Waiting for the observers is all that the mode brings about at the end of a word. -/
theorem respects_finishWord_alongside (name : String) :
    Respects (Alongside extra) (finishWord name) := by
  rintro s t ⟨hw, hc, mode, observers, rfl⟩
  unfold finishWord
  rw [get_bind, get_bind]
  dsimp only
  split <;> split <;> exact .ok () ⟨hw, hc, mode, _, rfl⟩

theorem respects_pushReturn_alongside (item : ReturnItem) :
    Respects (Alongside extra) (pushReturn item) := by
  rintro s t ⟨hw, hc, mode, observers, rfl⟩
  unfold pushReturn
  dsimp only
  cases s.returns.push? item with
  | none => exact .error _ ⟨hw, hc, mode, observers, rfl⟩
  | some returns => exact .ok () ⟨hw, hc, mode, observers, rfl⟩

theorem congruence_alongside : Congruence (Alongside extra) where
  agree := by
    rintro s t ⟨hw, -, mode, observers, rfl⟩
    refine ⟨rfl, rfl, rfl, rfl, ?_, rfl⟩
    unfold Session.definition?
    cases hs : s.sources with
    | nil => exact (hw hs).elim
    | cons source rest => rfl
  write := by
    rintro s t ⟨hw, hc, mode, observers, rfl⟩ w
    exact ⟨hw, hc, mode, observers, rfl⟩
  record := by
    rintro s t ⟨hw, hc, mode, observers, rfl⟩ e
    exact ⟨hw, hc, mode, observers.record e, rfl⟩
  source := by
    refine Respects.discard fun s t h => ?_
    obtain ⟨source, rest, rest', hs, ht⟩ := h.exists_source
    unfold currentSource
    rw [hs, ht]
    exact .ok source h
  token := by
    intro s t h
    obtain ⟨source, rest, rest', hs, ht⟩ := h.exists_source
    unfold nextToken?
    rw [hs, ht]
    dsimp only
    cases source.nextToken? with
    | none => exact .ok none h
    | some found => exact .ok (some found.1) (h.replaceSource hs ht)
  setDefinition := by
    refine fun d => Respects.modify fun s t h => ?_
    obtain ⟨source, rest, rest', hs, ht⟩ := h.exists_source
    rw [hs, ht]
    exact h.replaceSource hs ht
  pushValue := fun v => respects_pushReturn_alongside _
  popValue := by
    rintro s t ⟨hw, hc, mode, observers, rfl⟩ v returns hr
    exact ⟨returns, hr, hw, hc, mode, observers, rfl⟩
  finishWord := respects_finishWord_alongside

theorem running_alongside : Running (Alongside extra) where
  toCongruence := congruence_alongside
  frame := by
    rintro s t ⟨-, -, mode, observers, rfl⟩
    rfl
  setFrame := by
    rintro s t ⟨hw, hc, mode, observers, rfl⟩ frame
    exact ⟨hw, hc, mode, observers, rfl⟩
  pushReturn := respects_pushReturn_alongside
  loop? := by
    rintro s t ⟨-, -, mode, observers, rfl⟩ depth
    rfl
  replaceLoop := by
    rintro s t ⟨hw, hc, mode, observers, rfl⟩ frame
    exact ⟨hw, hc, mode, observers, rfl⟩
  dropLoop := by
    rintro s t ⟨hw, hc, mode, observers, rfl⟩
    exact ⟨rfl, hw, hc, mode, observers, rfl⟩

theorem respects_leaveWord_alongside (frame : CallFrame) :
    Respects (Alongside extra) (leaveWord frame) := by
  refine Respects.view (fun s t h => ?_) fun s => ?_
  · obtain ⟨-, -, mode, observers, rfl⟩ := h
    rfl
  · split
    · exact fun s t h => .error _ h
    · refine Respects.bind (Respects.modify ?_) fun _ => respects_finishWord_alongside _
      rintro s t ⟨hw, hc, mode, observers, rfl⟩
      exact ⟨hw, hc, mode, observers, rfl⟩

/-! ## Steps -/

/-- Those at the end come to the front when the sources before them are dropped. -/
theorem unusedSources_append (sources extra : List Pending) :
    unusedSources (sources ++ extra) = match unusedSources sources with
      | .ok [] => unusedSources extra
      | .ok rest => .ok (rest ++ extra)
      | .error d => .error d := by
  induction sources with
  | nil => rfl
  | cons p sources ih =>
    rw [List.cons_append, unusedSources, unusedSources]
    split
    · cases p.definition with
      | some d => rfl
      | none => exact ih
    · rfl

section

variable (he : Pending.Spent extra)
include he

theorem unusedSources_spent : unusedSources extra = .ok [] := by
  induction extra with
  | nil => rfl
  | cons p extra ih =>
    obtain ⟨hp, hd⟩ := he p List.mem_cons_self
    unfold unusedSources
    rw [if_pos hp, hd]
    exact ih fun q hq => he q (List.mem_cons_of_mem _ hq)

theorem openWords_append (s : Session) :
    Session.openWords { s with sources := s.sources ++ extra } = s.openWords := by
  have hn : extra.filterMap (fun source => source.definition.map (·.word)) = [] := by
    rw [List.filterMap_eq_nil_iff]
    intro p hp
    rw [(he p hp).2]
    rfl
  show (s.sources ++ extra).filterMap _ = _
  rw [List.filterMap_append, hn, List.append_nil]
  rfl

end

theorem alike_dropUsedSources {s t : Session} (he : Pending.Spent extra) (h : Alongside extra s t) :
    Alike Twins (dropUsedSources s) (dropUsedSources t) := by
  obtain ⟨hw, hc, mode, observers, rfl⟩ := h
  unfold dropUsedSources
  rw [get_bind, get_bind]
  dsimp only
  split
  · rename_i hf
    rw [unusedSources_append, unusedSources_spent he]
    cases unusedSources s.sources with
    | error d => exact .error _ (.inl ⟨extra, he, hw, hc, mode, observers, rfl⟩)
    | ok rest =>
      cases rest with
      | nil => exact .ok _ (.inr ⟨by simpa using hf, rfl, hc, mode, observers, rfl⟩)
      | cons p rest =>
        exact .ok _ (.inl ⟨extra, he, List.cons_ne_nil _ _, hc, mode, observers, rfl⟩)
  · exact .ok _ (.inl ⟨extra, he, hw, hc, mode, observers, rfl⟩)

/-- Nothing is in flight once the evaluation is dropped. -/
theorem Alongside.abort {s t : Session} (he : Pending.Spent extra) (h : Alongside extra s t)
    (e : ScriptError) : Twins (s.abort e) (t.abort e) := by
  obtain ⟨hw, hc, mode, observers, rfl⟩ := h
  refine .inr ⟨rfl, rfl, by simp [Session.abort, hc], mode, observers.record (.failed e), ?_⟩
  have ho := openWords_append he { s with mode, observers }
  unfold Session.abort
  rw [ho]
  rfl

namespace Twins

variable {s t : Session}

theorem hasPending (h : Twins s t) : t.hasPending = s.hasPending := by
  rcases h with ⟨extra, -, hw, -, mode, observers, rfl⟩ | ⟨-, -, -, mode, observers, rfl⟩
  · unfold Session.hasPending
    cases hs : s.sources with
    | nil => exact (hw hs).elim
    | cons p rest => rfl
  · rfl

/-- While something is in flight, so is a source. -/
theorem alongside (h : Twins s t) (hp : s.hasPending = true) :
    ∃ extra, Pending.Spent extra ∧ Alongside extra s t := by
  rcases h with h | ⟨hf, hs, -⟩
  · exact h
  · simp [Session.hasPending, hf, hs] at hp

theorem abort (h : Twins s t) (e : ScriptError) : Twins (s.abort e) (t.abort e) := by
  rcases h with ⟨extra, he, h⟩ | ⟨-, -, hc, mode, observers, rfl⟩
  · exact h.abort he e
  · exact .inr ⟨rfl, rfl, by simp [Session.abort, hc], mode, observers.record (.failed e), rfl⟩

end Twins

/-- Dropping the evaluation after an error leads from twins to twins. -/
theorem Alike.checked {α : Type} {p : Action α} {s t : Session} (h : Alike Twins (p s) (p t)) :
    Alike Twins (checked p s) (checked p t) := by
  unfold Action.checked
  generalize p s = r at h
  generalize p t = r' at h
  cases h with
  | ok a h => exact .ok a h
  | error f h =>
    cases f with
    | script e => exact .error _ (h.abort e)
    | breach b => exact .error _ h
    | outOfFuel => exact .error _ h

theorem Alongside.cancelled {s t : Session} (h : Alongside extra s t) : t.cancelled = false := by
  obtain ⟨-, hc, mode, observers, rfl⟩ := h
  exact hc

/-- Operations go on side by side, whatever sources wait. -/
theorem Alongside.alike_operation {s t : Session} (h : Alongside extra s t) :
    Alike (Alongside extra) (operation s) (operation t) :=
  running_alongside.alike_operation (fun _ _ h => h) respects_leaveWord_alongside h

/-- Twins take the same step. -/
theorem Twins.alike_checkedStep {s t : Session} (h : Twins s t) (hp : s.hasPending = true) :
    Alike Twins (Action.checked step s) (Action.checked step t) := by
  obtain ⟨extra, he, ha⟩ := h.alongside hp
  refine Alike.checked ?_
  rw [Session.step_of_running ha.running, Session.step_of_running ha.cancelled]
  exact ha.alike_operation.bind (fun _ _ _ h' => alike_dropUsedSources he h')
    fun _ _ h' => .inl ⟨extra, he, h'⟩

end StackLang
