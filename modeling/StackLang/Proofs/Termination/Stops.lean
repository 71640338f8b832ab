import StackLang.Proofs.Evaluation.Modes
import StackLang.Proofs.Termination.Steps

/-!
# Programs without endless loops stop

Whatever counted loops a program has, however they are nested and left, and however deep it calls
itself, only `BEGIN` and `+LOOP` make it run for ever.  In a session that was never given a source
with one of these words, the steps come to an end.

* `Winding.of_move`: every move leads to a session that comes to an end.
* `not_forever`: no sequence of successful steps is infinite.
* `Winding.ends`: with enough fuel the evaluation in flight ends.
-/

namespace StackLang

namespace Session

open StackLang.Action

variable {k k' : ℕ} {M : Multiset Weight} {s t u : Session}

/-! ## Moves -/

theorem counting_builtins : ∀ i e, builtins.get? i = some e → e.Counting := by
  refine builtins_induct (P := fun d => ∀ i e, d.get? i = some e → e.Counting)
    (fun i e he => by simp [Dictionary.get?, Dictionary.empty] at he) fun d w hd i e he => ?_
  rcases Dictionary.get?_insert he with he | rfl
  · exact hd i e he
  · refine ⟨fun code h => (by cases h), fun w' h => ?_⟩
    cases h
    exact (congrArg Text.uppercase (Dictionary.uppercase_specName w)).trans
      (Dictionary.uppercase_specName w)

theorem winding_ofConfig (config : Config) : (ofConfig config).Winding 0 0 where
  valid := valid_ofConfig config fun f h => by cases h
  counting := {
    supply := Nat.le_refl _
    sources := fun p h => by cases h
    entries := counting_builtins
    definition := fun d h => by cases h }
  mild := mild_ofConfig config
  running := fun c h => by cases h
  weighs := .idle

/-- Nothing new comes of dropping entries and words in flight. -/
theorem Winding.of_trimmed (h : s.Winding k M) (hv : t.Valid AbleOrBlank)
    (ho : s.outline.Trimmed t.outline) (hc : t.Counting k')
    (hf : t.frame = none ∨ t.frame = s.frame ∧ t.returns = s.returns) :
    ∃ k M, t.Winding k M := by
  have hrunning : ∀ c ∈ t.outline.running, c.2.Counting :=
    fun c hc => h.running c (ho.running c hc)
  rcases hf with hf | ⟨hf, hr⟩
  · refine ⟨k', 0, hv, hc, h.mild.of_trimmed ho, hrunning, ?_⟩
    rw [hf]
    exact .idle
  · refine ⟨k', M, hv, hc, h.mild.of_trimmed ho, hrunning, ?_⟩
    rw [hf, hr]
    exact h.weighs

/-- With no source there is no token to come. -/
theorem Counting.of_sources (hs : s.Counting k) (ho : s.outline.Trimmed t.outline)
    (ht : t.sources = []) : t.Counting 0 where
  supply := by rw [ht]; exact Nat.le_refl _
  sources := by rw [ht]; exact fun _ h => by cases h
  entries := by
    intro i e he
    obtain ⟨mark, hd⟩ := ho.dictionary
    rw [show t.dictionary = s.dictionary.forgetBackTo mark from hd] at he
    exact hs.entries i e (Dictionary.get?_forgetBackTo he)
  definition := by
    intro d hd
    rw [definition?, ht] at hd
    cases hd

theorem Counting.enqueue (hs : s.Counting k) {path source : String}
    (hn : (Pending.ofSource path source).Counting) :
    ∃ k', Counting k' { s with sources := s.sources ++ [.ofSource path source] } := by
  refine ⟨_, Nat.le_refl _, ?_, hs.entries, fun d hd => hs.definition d ?_⟩
  · intro p hp
    rcases List.mem_append.1 hp with hp | hp
    · exact hs.sources p hp
    · exact List.mem_singleton.1 hp ▸ hn
  · unfold definition? at hd ⊢
    cases hsrc : s.sources with
    | nil =>
      rw [hsrc] at hd
      cases hd
    | cons p rest =>
      rw [hsrc] at hd
      exact hd

/-- Every move keeps a session that comes to an end from running for ever, unless it queues a source
with an endless loop. -/
theorem Winding.of_move {m : Move} (h : s.Winding k M)
    (hm : ∀ path source, m = .enqueue path source → (Pending.ofSource path source).Counting)
    (ht : remains (m.run s) = .ok t) : ∃ k M, t.Winding k M := by
  have hv := valid_move h.valid ht
  cases hr : m.run s with
  | error f u =>
    rw [hr] at ht
    cases f with
    | breach b => cases ht
    | outOfFuel => exact (ne_outOfFuel_of_move h.valid hr).elim
    | script e =>
      cases ht
      obtain ⟨ho, hsources⟩ := outline_of_error h.valid hr
      have htrimmed : s.outline.Trimmed t.outline := ho ▸ Outline.trimmed_rolledBack _
      refine h.of_trimmed hv htrimmed (h.counting.of_sources htrimmed hsources) (.inl ?_)
      have hrunning : t.outline.running = [] := congrArg Outline.running ho
      obtain hf | ⟨f, hf⟩ := Option.eq_none_or_eq_some t.frame
      · exact hf
      · have hmem := mem_running_of_frame hf
        rw [hrunning] at hmem
        cases hmem
  | ok a u =>
    rw [hr] at ht
    cases ht
    by_cases hstep : m = .step
    · subst hstep
      rcases step_of_run_step hr with ⟨hp, hstep⟩ | ⟨-, rfl⟩
      · obtain ⟨k', M', hw, -⟩ := h.step hp hstep
        exact ⟨k', M', hw⟩
      · exact ⟨k, M, h⟩
    · have ho := Outline.trimmed_of_changed (changed_of_ok h.valid hr) hstep
      cases m with
      | step => exact (hstep rfl).elim
      | enqueue path source =>
        obtain ⟨k', hc⟩ := h.counting.enqueue (hm path source rfl)
        cases hr
        exact h.of_trimmed hv ho hc (.inr ⟨rfl, rfl⟩)
      | dropUsedSources =>
        have hdrop := eq_ok_of_checked hr
        have hc := h.counting.dropUsedSources h.valid.toConsistent hdrop
        obtain ⟨sources, rfl, -⟩ := exists_of_dropUsedSources hdrop
        exact h.of_trimmed hv ho hc (.inr ⟨rfl, rfl⟩)
      | reset =>
        cases hr
        exact h.of_trimmed hv ho (h.counting.of_sources ho rfl) (.inl rfl)
      | resetDefinitions =>
        cases hr
        exact h.of_trimmed hv ho h.counting.resetDefinitions (.inr ⟨rfl, rfl⟩)
      | setMode _ | setCancelled _ | observe _ | takeOutput | mark =>
        cases hr
        exact h.of_trimmed hv ho (h.counting.congr rfl rfl) (.inr ⟨rfl, rfl⟩)

/-- Moves that queue no source with an endless loop lead to a session that comes to an end. -/
theorem Winding.of_play {moves : List Move} (h : s.Winding k M)
    (hm : ∀ path source, .enqueue path source ∈ moves → (Pending.ofSource path source).Counting)
    (ht : play moves s = .ok t) : ∃ k M, t.Winding k M := by
  induction moves generalizing s k M with
  | nil =>
    cases ht
    exact ⟨k, M, h⟩
  | cons m moves ih =>
    rw [play] at ht
    cases hr : remains (m.run s) with
    | error b =>
      rw [hr] at ht
      cases ht
    | ok u =>
      rw [hr] at ht
      obtain ⟨k', M', hu⟩ := h.of_move (fun path source he => hm path source
        (he ▸ List.mem_cons_self)) hr
      exact ih hu (fun path source he => hm path source (List.mem_cons_of_mem _ he)) ht

/-! ## Runs -/

/-- There is no infinite sequence of steps. -/
theorem Winding.not_forever {x : ℕ × Multiset Weight} (h : s.Winding x.1 x.2)
    (run : ℕ → Session) (hstart : run 0 = s)
    (hrun : ∀ n, (run n).hasPending = true ∧ Action.step (run n) = .ok () (run (n + 1))) :
    False := by
  induction x using wellFounded_less.induction generalizing s run with
  | h x ih =>
    subst hstart
    obtain ⟨hp, hstep⟩ := hrun 0
    obtain ⟨k', M', hw, hless⟩ := h.step hp hstep
    exact ih (k', M') hless hw (fun n => run (n + 1)) rfl fun n => hrun (n + 1)

/-- With enough fuel the evaluation in flight ends. -/
theorem Winding.ends {x : ℕ × Multiset Weight} (h : s.Winding x.1 x.2) :
    ∃ y, Ends runPending s y := by
  induction x using wellFounded_less.induction generalizing s with
  | h x ih =>
    cases hp : s.hasPending with
    | false => exact ⟨.done s.visible, 0, by rw [runPending_of_idle hp]; rfl⟩
    | true =>
      cases hr : Action.step s with
      | ok a t =>
        obtain ⟨k', M', hw, hless⟩ := h.step hp hr
        obtain ⟨y, fuel, hy⟩ := ih (k', M') hless hw
        refine ⟨y, fuel + 1, ?_⟩
        rw [runPending_succ, if_pos hp, checked_ok hr]
        exact hy
      | error f t =>
        cases f with
        | outOfFuel => exact (ne_outOfFuel_of_step h.valid hr).elim
        | script e =>
          refine ⟨.failed e (t.abort e).visible, 1, ?_⟩
          rw [runPending_succ, if_pos hp, checked_script hr]
          rfl
        | breach b =>
          refine ⟨.broken b, 1, ?_⟩
          rw [runPending_succ, if_pos hp, checked, hr]
          rfl

/-- Whatever is done to a session that is never given `BEGIN` or `+LOOP`, it does not run for ever:
no sequence of successful steps is infinite, and what is in flight ends. -/
theorem stops_without_endless (config : Config) (moves : List Move)
    (hm : ∀ path source, .enqueue path source ∈ moves → (Pending.ofSource path source).Counting)
    (hs : play moves (ofConfig config) = .ok s) :
    (∀ run : ℕ → Session, run 0 = s →
      ¬ ∀ n, (run n).hasPending = true ∧ Action.step (run n) = .ok () (run (n + 1))) ∧
    ∃ y, Ends runPending s y := by
  obtain ⟨k, M, hw⟩ := (winding_ofConfig config).of_play hm hs
  exact ⟨fun run hstart hrun => Winding.not_forever (x := (k, M)) hw run hstart hrun,
    Winding.ends (x := (k, M)) hw⟩

/-- `W` calls itself in a counted loop, and has just done so. -/
theorem stops_without_endless_recursive :
    let source := ": W DUP 0 ?DO I RECURSE LOOP DROP ; 3 W"
    let moves := Move.enqueue inputPath source :: List.replicate 16 .step
    (∀ path source, .enqueue path source ∈ moves → (Pending.ofSource path source).Counting) ∧
      ∃ s, play moves (ofConfig .standard) = .ok s ∧ s.callDepth = 2 ∧
        (∀ run : ℕ → Session, run 0 = s →
          ¬ ∀ n, (run n).hasPending = true ∧ Action.step (run n) = .ok () (run (n + 1))) ∧
        ∃ y, Ends runPending s y := by
  intro source moves
  have hm : ∀ path source, .enqueue path source ∈ moves →
      (Pending.ofSource path source).Counting := by
    intro path text hmem
    rcases List.mem_cons.1 hmem with h | h
    · cases h
      rw [Pending.ofSource_eq 50 (by decide)]
      decide +kernel
    · cases List.eq_of_mem_replicate h
  have hrun : (play moves (ofConfig .standard)).toOption.map (·.callDepth) = some 2 := by
    rw [play, show Move.run (.enqueue inputPath source) (ofConfig .standard) =
      .ok () { ofConfig .standard with sources := [] ++ [.ofSource inputPath source] } from rfl]
    rw [Pending.ofSource_eq 50 (by decide)]
    decide +kernel
  obtain ⟨s, hs, hdepth⟩ := Option.map_eq_some_iff.1 hrun
  have hs := eq_ok_of_toOption hs
  exact ⟨hm, s, hs, hdepth, stops_without_endless .standard moves hm hs⟩

end Session

end StackLang
