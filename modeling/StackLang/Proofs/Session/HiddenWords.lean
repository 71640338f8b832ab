import StackLang.Proofs.Session.Moves
import StackLang.Proofs.Token.Bounded

/-!
# Only a hidden word can break the machine

Every session that moves lead to is valid.  A rule of the machine is broken only after an
instruction has called a word that is still hidden, and then by the very next step: the word that is
being built has no code yet, and a frame without code has no instruction.

* `valid_play`: what moves keep.
* `exists_callsHidden_of_breach`, `play_of_callsHidden`: a run breaks the machine exactly by calling
  a hidden word.
-/

namespace StackLang

namespace Session

open StackLang.Action

variable {φ : Option CallFrame → Prop} {s t : Session}

/-! ## Valid sessions -/

theorem sound_ofBuiltin (word : Builtin) : (Entry.ofBuiltin word).Sound where
  visible := fun _ _ hc => by cases hc
  hidden := fun h => by cases h
  role := fun w hw hi => by
    cases hw
    simpa [Entry.ofBuiltin] using hi

/-- What holds of the empty dictionary and is kept by each built-in word holds of all of them. -/
theorem builtins_induct {P : Dictionary → Prop} (empty : P .empty)
    (insert : ∀ d w, P d → P (d.insert (.ofBuiltin w)).2) : P builtins := by
  have grow (words : List Builtin) (d : Dictionary) (hd : P d) :
      P (words.foldl (fun d word => (d.insert (.ofBuiltin word)).2) d) := by
    induction words generalizing d with
    | nil => exact hd
    | cons word words ih => exact ih _ (insert d word hd)
  exact grow _ _ empty

theorem sound_builtins : builtins.Sound :=
  builtins_induct (fun i e he => by simp [Dictionary.get?, Dictionary.empty] at he)
    fun _ w hd => hd.insert (sound_ofBuiltin w)

/-- With nothing in flight, a session with sound words is valid. -/
theorem valid_of_idle (hd : s.dictionary.Sound) (hs : s.sources = []) (hf : s.frame = none)
    (hr : s.returns.items = []) (hφ : φ none) : s.Valid φ where
  entries := hd
  definition := fun d h => by simp [definition?, hs] at h
  reserved := fun d e h => by simp [definition?, hs] at h
  queued := fun p hp => by simp [hs] at hp
  linked := by
    rw [hf, hr]
    trivial
  running := hf ▸ hφ

theorem valid_ofConfig (config : Config) (hφ : φ none) : (ofConfig config).Valid φ :=
  valid_of_idle sound_builtins rfl rfl rfl hφ

theorem valid_abort (hd : s.dictionary.Sound) (e : ScriptError) (hφ : φ none) :
    (s.abort e).Valid φ := by
  refine valid_of_idle ?_ rfl rfl rfl hφ
  unfold abort
  dsimp only
  cases s.openWords.min? with
  | none => exact hd
  | some word => exact hd.forgetBackTo word

theorem valid_reset (h : s.Valid φ) (hφ : φ none) : s.reset.Valid φ :=
  valid_of_idle (h.entries.forgetBackTo _) rfl rfl rfl hφ

theorem valid_enqueue (h : s.Valid φ) (path source : String) :
    Valid φ { s with sources := s.sources ++ [.ofSource path source] } := by
  have hd : ∀ d, (s.sources ++ [Pending.ofSource path source]).head?.bind (·.definition) = some d →
      s.definition? = some d := by
    intro d hd
    unfold definition?
    cases hs : s.sources with
    | nil =>
      rw [hs] at hd
      cases hd
    | cons p rest => rwa [hs] at hd
  refine ⟨⟨h.entries, fun d he => h.definition d (hd d he), fun d e he => h.reserved d e (hd d he),
    fun p hp => ?_, h.linked⟩, h.running⟩
  have hq := h.queued
  cases hs : s.sources with
  | nil => simp [hs] at hp
  | cons q rest =>
    simp only [hs, List.cons_append, List.tail_cons, List.mem_append, List.mem_singleton] at hp hq
    rcases hp with hp | rfl
    · exact hq p hp
    · rfl

/-! ## What moves keep -/

theorem triple_checked {α : Type} {p : Action α} {P : Session → Prop} {Q : α → Session → Prop}
    (hφ : φ none) (h : Triple P p Q SoundWords) :
    Triple P (checked p) Q (Scripted (Valid φ)) := by
  intro s hs
  have := h s hs
  unfold checked
  cases hr : p s with
  | ok a t => rwa [hr] at this
  | error f t =>
    rw [hr] at this
    cases f with
    | script e => exact valid_abort this e hφ
    | breach b => exact this
    | outOfFuel => exact this

/-- A step of a session with something in flight, with what is checked behind it. -/
theorem triple_stepOnce {P : Session → Prop} (hφ : φ none) (hP : ∀ s, P s → s.Valid φ)
    (h : Triple P step (fun _ => Valid φ) SoundWords) :
    Triple P stepOnce (fun _ => Valid φ) (Scripted (Valid φ)) := by
  refine Triple.get_bind fun s hs => ?_
  split
  · have start : ∀ t, t = s → P t := fun t ht => ht ▸ hs
    refine ((triple_checked hφ h).mono start fun _ _ h => h).bind fun _ => ?_
    exact Triple.view fun _ => Triple.pure fun _ h => h
  · exact Triple.pure fun t ht => ht ▸ hP s hs

/-- Every move but a step keeps what does not depend on the running word. -/
theorem triple_move {m : Move} (hm : m ≠ .step) (hφ : φ none) :
    Triple (Valid φ) m.run (fun _ => Valid φ) (Scripted (Valid φ)) := by
  have same {f : Session → Session} (h : ∀ s : Session, (f s).dictionary = s.dictionary ∧
      (f s).sources = s.sources ∧ (f s).frame = s.frame ∧ (f s).returns = s.returns) :
      Triple (Valid φ) (modify f) (fun _ => Valid φ) (Scripted (Valid φ)) := by
    refine Triple.modify fun s hs => ?_
    obtain ⟨hd, hsrc, hf, hr⟩ := h s
    refine ⟨⟨hd ▸ hs.entries, ?_, ?_, hsrc ▸ hs.queued, hf ▸ hr ▸ hs.linked⟩, hf ▸ hs.running⟩
    · rw [definition?, hsrc]
      exact hs.definition
    · rw [definition?, hsrc, hd]
      exact hs.reserved
  cases m with
  | enqueue path source => exact Triple.modify fun s hs => valid_enqueue hs path source
  | dropUsedSources => exact triple_checked hφ triple_dropUsedSources
  | step => exact (hm rfl).elim
  | setMode mode => exact same fun s => ⟨rfl, rfl, rfl, rfl⟩
  | setCancelled cancelled => exact same fun s => ⟨rfl, rfl, rfl, rfl⟩
  | observe observers => exact same fun s => ⟨rfl, rfl, rfl, rfl⟩
  | takeOutput => exact same fun s => ⟨rfl, rfl, rfl, rfl⟩
  | mark => exact same fun s => ⟨rfl, rfl, rfl, rfl⟩
  | reset => exact Triple.modify fun s hs => valid_reset hs hφ
  | resetDefinitions => exact triple_reset

theorem hasPending_of_frame {f : CallFrame} (hf : s.frame = some f) : s.hasPending = true := by
  simp [hasPending, hf]

/-- With a word that has no code, a step breaks the machine. -/
theorem stepOnce_blank {f : CallFrame} (hf : s.frame = some f) (hb : f.Blank)
    (hc : s.cancelled = false) : stepOnce s = .error (.breach (.ranOff 0 f.name)) s := by
  rw [stepOnce_eq, if_pos (hasPending_of_frame hf), checked, step_blank hf hb hc]

/-- A word without code has no instruction that could call another. -/
theorem able_of_callsHidden (h : AbleOrBlank s.frame) (hc : s.CallsHidden) : Able s.frame := by
  obtain ⟨i, -, hi, -⟩ := hc
  intro f hf
  refine (h f hf).resolve_right fun hb => ?_
  simp [callee?, hf, hb.1, hb.2] at hi

theorem callsHidden_frame (hc : s.CallsHidden) : ∃ f, s.frame = some f := by
  obtain ⟨i, -, hi, -⟩ := hc
  cases hf : s.frame with
  | none => simp [callee?, hf] at hi
  | some f => exact ⟨f, rfl⟩

theorem orBlank_of_blankFrame {frame : Option CallFrame} (h : BlankFrame frame) :
    AbleOrBlank frame := by
  obtain ⟨f, rfl, hb⟩ := h
  intro g hg
  cases hg
  exact .inr hb

/-- No rule of the machine is broken where a script error is the worst that can happen. -/
theorem exists_remains {α : Type} {P Q : Session → Prop} {p : Action α}
    (h : Triple P p (fun _ => Q) (Scripted Q)) (hs : P s) : ∃ t, remains (p s) = .ok t ∧ Q t := by
  have := h s hs
  revert this
  cases p s with
  | ok a t => exact fun h => ⟨t, rfl, h⟩
  | error f t =>
    cases f with
    | script e => exact fun h => ⟨t, rfl, h⟩
    | breach b => exact False.elim
    | outOfFuel => exact False.elim

/-- A move of a valid session that does not call a hidden word leaves a valid session. -/
theorem exists_remains_move (m : Move) (hs : s.Valid Able) (hc : m = .step → ¬ s.CallsHidden) :
    ∃ t, remains (m.run s) = .ok t ∧ t.Valid Able := by
  by_cases hm : m = .step
  · subst hm
    have h : Triple (fun s => s.Valid Able ∧ ¬ s.CallsHidden) stepOnce (fun _ => Valid Able)
        (Scripted (Valid Able)) :=
      triple_stepOnce nofun (fun _ h => h.1) triple_step
    exact exists_remains (Triple.discard h) ⟨hs, hc rfl⟩
  · exact exists_remains (triple_move hm nofun) hs

/-- A word that cannot go on has no code. -/
theorem exists_blank {frame : Option CallFrame} (h : AbleOrBlank frame) (hn : ¬ Able frame) :
    ∃ f, frame = some f ∧ f.Blank := by
  cases frame with
  | none => exact (hn nofun).elim
  | some f =>
    refine ⟨f, rfl, (h f rfl).resolve_left fun hr => hn fun g hg => ?_⟩
    cases hg
    exact hr

theorem run_step : remains (Move.step.run s) = remains (stepOnce s) := by
  show remains ((stepOnce >>= fun _ => pure ()) s) = _
  rw [bind_apply]
  cases stepOnce s with
  | ok a t => rfl
  | error f t => cases f <;> rfl

/-- Every session that a move leaves behind is valid, but the running word may have no code. -/
theorem valid_move {m : Move} (hs : s.Valid AbleOrBlank) (ht : remains (m.run s) = .ok t) :
    t.Valid AbleOrBlank := by
  have of_triple {P : Session → Prop}
      (h : Triple P m.run (fun _ => Valid AbleOrBlank) (Scripted (Valid AbleOrBlank)))
      (hP : P s) : t.Valid AbleOrBlank := by
    obtain ⟨u, hu, hv⟩ := exists_remains h hP
    rw [ht] at hu
    cases hu
    exact hv
  by_cases hm : m = .step
  · subst hm
    by_cases ha : Able s.frame
    · by_cases hc : s.CallsHidden
      · have h : Triple (fun s => s.Valid Able ∧ s.CallsHidden) stepOnce
            (fun _ => Valid AbleOrBlank) (Scripted (Valid AbleOrBlank)) :=
          triple_stepOnce nofun (fun _ h => h.1.mono Able.orBlank) (triple_step_hidden.mono
            (fun _ h => h) fun _ _ h => h.mono orBlank_of_blankFrame)
        exact of_triple (Triple.discard h) ⟨⟨hs.toConsistent, ha⟩, hc⟩
      · obtain ⟨u, hu, hv⟩ := exists_remains_move .step ⟨hs.toConsistent, ha⟩ fun _ => hc
        rw [ht] at hu
        cases hu
        exact hv.mono Able.orBlank
    · obtain ⟨f, hf, hb⟩ := exists_blank hs.running ha
      cases hc : s.cancelled with
      | true =>
        have h : Triple (fun s => s.Valid AbleOrBlank ∧ s.cancelled = true) step
            (fun _ => Valid AbleOrBlank) SoundWords := fun s hs => by
          rw [step_of_cancelled hs.2]
          exact hs.1.entries
        exact of_triple (Triple.discard (triple_stepOnce nofun (fun _ h => h.1) h)) ⟨hs, hc⟩
      | false =>
        rw [run_step, stepOnce_blank hf hb hc] at ht
        cases ht
  · exact of_triple (triple_move hm nofun) hs

/-- A step that succeeds leaves a valid session. -/
theorem valid_step (hs : s.Valid AbleOrBlank) (hp : s.hasPending = true)
    (h : Action.step s = .ok () t) : t.Valid AbleOrBlank := by
  refine valid_move (m := .step) hs ?_
  rw [run_step, stepOnce_eq, if_pos hp, checked_ok h]
  rfl

/-- Moves lead from valid sessions to valid sessions. -/
theorem valid_play {moves : List Move} (hs : s.Valid AbleOrBlank) (ht : play moves s = .ok t) :
    t.Valid AbleOrBlank := by
  induction moves generalizing s with
  | nil =>
    cases ht
    exact hs
  | cons m moves ih =>
    rw [play] at ht
    cases hm : remains (m.run s) with
    | ok u =>
      rw [hm] at ht
      exact ih (valid_move hs hm) ht
    | error b =>
      rw [hm] at ht
      cases ht

/-! ## Hidden words -/

/-- Before the machine breaks, a hidden word was called. -/
theorem exists_callsHidden_of_breach {moves : List Move} {b : Breach} (hs : s.Valid Able)
    (hb : play moves s = .error b) :
    ∃ before after u, moves = before ++ .step :: after ∧ play before s = .ok u ∧
      u.CallsHidden := by
  induction moves generalizing s with
  | nil => cases hb
  | cons m moves ih =>
    by_cases hc : m = .step ∧ s.CallsHidden
    · obtain ⟨rfl, hc⟩ := hc
      exact ⟨[], moves, s, rfl, rfl, hc⟩
    · obtain ⟨t, ht, hv⟩ := exists_remains_move m hs fun hm h => hc ⟨hm, h⟩
      rw [play, ht] at hb
      obtain ⟨before, after, u, rfl, hu, hh⟩ := ih hv hb
      refine ⟨m :: before, after, u, rfl, ?_, hh⟩
      rw [play, ht]
      exact hu

/-- After the call of a hidden word a word runs that has no code. -/
theorem exists_blank_of_callsHidden (hs : s.Valid AbleOrBlank) (hc : s.CallsHidden)
    (ht : step s = .ok () t) : ∃ f, t.frame = some f ∧ f.Blank := by
  have h := triple_step_hidden s ⟨⟨hs.toConsistent, able_of_callsHidden hs.running hc⟩, hc⟩
  rw [ht] at h
  exact h.running

theorem cancelled_of_callsHidden (hs : s.Valid AbleOrBlank) (hc : s.CallsHidden)
    (ht : step s = .ok () t) : t.cancelled = false := by
  obtain ⟨f, hf⟩ := callsHidden_frame hc
  obtain ⟨i, e, hi, he, hv⟩ := hc
  have hrun : s.cancelled = false := by
    cases hcancel : s.cancelled with
    | false => rfl
    | true =>
      rw [step_of_cancelled hcancel] at ht
      cases ht
  simp only [callee?, hf, Option.bind_some] at hi
  obtain ⟨x, hx, hi⟩ := Option.bind_eq_some_iff.1 hi
  have hcall : runInstruction f s = callCompiled i e.name #[] { s with
      frame := some { f with next := f.next + 1 }
      location := x.location.or s.location
      observers := s.observers.record (.starting e.name e.signature) } := by
    rw [runInstruction_eq hx, runOp_of_callee? hi]
    exact call_of_compiled he ((hs.entries i e he).hidden hv)
  rw [step_of_running hrun, bind_apply, operation_of_frame hf, hcall, callCompiled_eq] at ht
  dsimp only at ht
  split at ht
  · rename_i hr
    split at hr
    · cases hr
      cases ht
      exact hrun
    · cases hr
  · cases ht

/-- What breaks the machine is the call of a hidden word, and nothing else: every run of a fresh
session that ends in a breach has called one before, and once one is called the next step is a
breach.  Every sequence of requests is such a run. -/
theorem breach_iff_callsHidden (config : Config) :
    (∀ moves b, play moves (ofConfig config) = .error b →
      ∃ before after s, moves = before ++ .step :: after ∧
        play before (ofConfig config) = .ok s ∧ s.CallsHidden) ∧
    (∀ moves s t, play moves (ofConfig config) = .ok s → s.CallsHidden → step s = .ok () t →
      ∃ f, t.frame = some f ∧
        play (moves ++ [.step, .step]) (ofConfig config) = .error (.ranOff 0 f.name)) ∧
    ∀ fuel requests, ∃ moves,
      play moves (ofConfig config) = perform fuel requests (ofConfig config) := by
  refine ⟨fun moves b hb => exists_callsHidden_of_breach (valid_ofConfig config nofun) hb,
    fun moves s t hs hc ht => ?_, fun fuel requests => exists_play_eq_perform fuel requests _⟩
  have hv := valid_play (valid_ofConfig config nofun) hs
  obtain ⟨f, hf, hb⟩ := exists_blank_of_callsHidden hv hc ht
  refine ⟨f, hf, ?_⟩
  obtain ⟨g, hg⟩ := callsHidden_frame hc
  have hstep : remains (Move.step.run s) = .ok t := by
    rw [run_step, stepOnce_eq, if_pos (hasPending_of_frame hg), checked_ok ht]
    rfl
  rw [play_append, hs]
  dsimp only
  rw [play, hstep]
  dsimp only
  rw [play, run_step, stepOnce_blank hf hb (cancelled_of_callsHidden hv hc ht)]
  rfl

/-- The rule that the last request has broken. -/
def breach? : Except Breach Session → Option Breach
  | .ok _ => none
  | .error b => some b

theorem eq_error_of_breach? {r : Except Breach Session} {b : Breach} (h : breach? r = some b) :
    r = .error b := by
  cases r with
  | ok s => cases h
  | error c => exact congrArg _ (Option.some.inj h)

/-- `W` calls the variable `Z` by its index.  Once `Z` is forgotten the next definition reserves the
same index, and `W` is immediate, so it calls the word that is being defined. -/
theorem perform_forgotten_variable :
    perform 30
      [.evaluate ": MK VARIABLE ; IMMEDIATE : W IMMEDIATE MK Z Z ; FORGET Z : NEW W ;"]
      (ofConfig .standard) = .error (.ranOff 0 "NEW") := by
  refine eq_error_of_breach? ?_
  rw [perform, Request.run, evaluate_of_run fun h => by cases h]
  rw [Pending.ofSource_eq 80 (by decide)]
  decide +kernel

end Session

end StackLang
