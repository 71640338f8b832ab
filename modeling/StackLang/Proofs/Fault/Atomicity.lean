import StackLang.Proofs.Fault.Settled
import StackLang.Proofs.Session.HiddenWords

/-!
# Errors leave no trace

Whatever a caller does to a session, if it fails with an error then the session is what it was
before, but for operands that are lost, and with nothing in flight any more.

* `undone_step`: a step that fails has done nothing that its error does not drop.
* `rolledBack_of_error`: what is left of a session after an error.
-/

namespace StackLang

namespace Session

open StackLang.Action

variable {s t : Session}

theorem unusedSources_eq_error {sources : List Pending} {d : Definition}
    (h : unusedSources sources = .error d) : ∃ p ∈ sources, p.definition = some d := by
  induction sources with
  | nil => cases h
  | cons source rest ih =>
    unfold unusedSources at h
    split at h
    · split at h
      · rename_i hd
        cases h
        exact ⟨source, List.mem_cons_self, hd⟩
      · obtain ⟨p, hp, hd⟩ := ih h
        exact ⟨p, List.mem_cons_of_mem _ hp, hd⟩
    · cases h

/-- The end of a source is an error only inside a definition, with no word running. -/
theorem undone_dropUsedSources {f : Fault} (hs : s.Consistent)
    (h : dropUsedSources s = .error f t) :
    s.frame = none ∧ s.isCompiling = true ∧ s.Undone t := by
  unfold dropUsedSources at h
  rw [StackLang.get_bind] at h
  cases hf : s.frame with
  | some frame =>
    rw [hf] at h
    cases h
  | none =>
    rw [hf] at h
    cases hu : unusedSources s.sources with
    | ok sources =>
      rw [hu] at h
      cases h
    | error d =>
      rw [hu] at h
      cases h
      refine ⟨rfl, ?_, List.suffix_refl _, rfl, rfl⟩
      obtain ⟨p, hp, hd⟩ := unusedSources_eq_error hu
      have hq := hs.queued
      cases hsrc : s.sources with
      | nil =>
        rw [hsrc] at hp
        cases hp
      | cons source rest =>
        rw [hsrc] at hp hq
        rcases List.mem_cons.1 hp with rfl | hp
        · simp [isCompiling, definition?, hsrc, hd]
        · rw [hq p hp] at hd
          cases hd

/-- What an operation leaves behind is consistent, whatever it calls. -/
theorem consistent_operation (hs : s.Valid AbleOrBlank) (h : operation s = .ok () t) :
    t.Consistent := by
  by_cases ha : Able s.frame
  · have hv : s.Valid Able := hs.mono fun _ => ha
    by_cases hc : s.CallsHidden
    · have := triple_operation_hidden s ⟨hv, hc⟩
      rw [h] at this
      exact this.toConsistent
    · have := triple_operation s ⟨hv, hc⟩
      rw [h] at this
      exact this.toConsistent
  · obtain ⟨f, hf, hb⟩ := exists_blank hs.running ha
    rw [operation_of_frame hf] at h
    unfold runInstruction at h
    rw [hb.1, hb.2] at h
    cases h

/-- A step that fails has done nothing that its error does not drop. -/
theorem undone_step {f : Fault} (hs : s.Valid AbleOrBlank) (h : step s = .error f t) :
    s.Undone t := by
  cases hc : s.cancelled with
  | true =>
    rw [step_of_cancelled hc] at h
    cases h
    exact Undone.refl s
  | false =>
    rw [step_of_running hc, bind_apply] at h
    cases hr : operation s with
    | error e u =>
      rw [hr] at h
      cases h
      exact atomic_operation s _ _ hr
    | ok a u =>
      rw [hr] at h
      have hu := consistent_operation hs hr
      obtain ⟨hf, hcompiling, hd⟩ := undone_dropUsedSources hu h
      exact (settled_operation hs.toConsistent hr hf hcompiling).trans hd

/-- A move that fails has dropped the evaluation, and what its error does not drop was undone. -/
theorem undone_move {m : Move} {e : ScriptError} (hs : s.Valid AbleOrBlank)
    (h : m.run s = .error (.script e) t) : ∃ u, s.Undone u ∧ t = u.abort e := by
  rcases error_of_move h with ⟨-, h⟩ | ⟨-, h⟩
  · obtain ⟨u, hu, ht⟩ := error_of_checked h
    exact ⟨u, undone_step hs hu, ht e rfl⟩
  · obtain ⟨u, hu, ht⟩ := error_of_checked h
    exact ⟨u, (undone_dropUsedSources hs.toConsistent hu).2.2, ht e rfl⟩

/-- In every session that moves lead to, a move that fails loses operands at most: the memory is as
it was, the dictionary is, too, but without the definition that was open, and nothing is in flight
any more. -/
theorem rolledBack_of_error (config : Config) {moves : List Move} {m : Move} {e : ScriptError}
    (hs : play moves (ofConfig config) = .ok s) (ht : m.run s = .error (.script e) t) :
    t.stack <:+ s.stack ∧ t.cells = s.cells ∧
      t.dictionary = (match s.definition? with
        | some d => s.dictionary.forgetBackTo d.word
        | none => s.dictionary) ∧
      t.definition? = none ∧ t.hasPending = false ∧ t.returns.items = [] ∧ t.calls = [] := by
  have hv := valid_play (valid_ofConfig config nofun) hs
  obtain ⟨u, hu, rfl⟩ := undone_move hv ht
  refine ⟨hu.stack, hu.cells, ?_, rfl, rfl, rfl, rfl⟩
  rw [dictionary_abort, hu.cut]
  cases hd : s.definition? with
  | some d => exact hv.toConsistent.cut_of_some hd
  | none => exact hv.toConsistent.cut_of_none hd

/-- Why a step fails, with the entry of the open definition and the size of the dictionary. -/
def stepFailure? (s : Session) : Option (Cause × Option Nat × Nat) :=
  match Move.step.run s with
  | .error (.script e) _ => some (e.cause, s.definition?.map (·.word), s.dictionary.size)
  | _ => none

/-- `SQUARE` is opened, and `THEN` fails inside of it. -/
theorem rolledBack_unmatchedThen : ∃ s t e,
    play [.enqueue inputPath ": SQUARE THEN", .step] (ofConfig .standard) = .ok s ∧
      Move.step.run s = .error (.script e) t ∧ e.cause = .unmatched "THEN" "IF" ∧
      s.definition?.map (·.word) = some 96 ∧ s.dictionary.size = 97 ∧
      t.stack <:+ s.stack ∧ t.cells = s.cells ∧
      t.dictionary = (match s.definition? with
        | some d => s.dictionary.forgetBackTo d.word
        | none => s.dictionary) ∧
      t.definition? = none ∧ t.hasPending = false ∧ t.returns.items = [] ∧ t.calls = [] := by
  have hrun : (play [.enqueue inputPath ": SQUARE THEN", .step]
      (ofConfig .standard)).toOption.bind stepFailure? =
        some (.unmatched "THEN" "IF", some 96, 97) := by
    rw [play, show Move.run (.enqueue inputPath ": SQUARE THEN") (ofConfig .standard) =
      .ok () { ofConfig .standard with
        sources := [] ++ [.ofSource inputPath ": SQUARE THEN"] } from rfl]
    rw [Pending.ofSource_eq 20 (by decide)]
    decide +kernel
  obtain ⟨s, hs, hrun⟩ := Option.bind_eq_some_iff.1 hrun
  have hs := eq_ok_of_toOption hs
  unfold stepFailure? at hrun
  cases ht : Move.step.run s with
  | ok a t =>
    rw [ht] at hrun
    cases hrun
  | error f t =>
    rw [ht] at hrun
    cases f with
    | breach b => cases hrun
    | outOfFuel => cases hrun
    | script e =>
      simp only [Option.some.injEq, Prod.mk.injEq] at hrun
      exact ⟨s, t, e, hs, ht, hrun.1, hrun.2.1, hrun.2.2, rolledBack_of_error .standard hs ht⟩

end Session

end StackLang
