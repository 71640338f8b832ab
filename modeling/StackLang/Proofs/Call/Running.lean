import StackLang.Proofs.Call.Chain
import StackLang.Proofs.Session.HiddenWords

/-!
# Frames, markers and the list of calls stay in step

In every session that moves lead to, the frame that runs, the call markers on the return stack and
the list of calls describe the same chain of words.  So the end of a word always finds its marker,
and an error names the words that were running when it was raised.

* `Chained`: what the three have in common.
* `Fails`: at which moment a step or the end of a source fails, and in which built-in word.
* `chained_of_play`: every session is chained, and every error names the running words.
-/

namespace StackLang

namespace Session

open ReturnStack
open StackLang.Action

variable {depth : Nat} {s t u : Session} {f : CallFrame} {fault : Fault} {e : ScriptError}

/-- The running frame, the call markers and the list of calls belong together. -/
structure Chained (depth : Nat) (s : Session) : Prop where
  /-- A word runs if there is a marker. -/
  frame : s.frame.isSome = true ↔ 0 < markers s.returns.items
  /-- The lowest marker holds no caller, and every other one holds one. -/
  held : held s.returns.items =
    if s.frame.isSome then (callers s.returns.items).map some ++ [none] else []
  /-- There is an item for every marker. -/
  length : s.calls.length = markers s.returns.items
  words : s.calls.map (·.word) = s.active.map (·.name)
  room : s.returns.items.length ≤ depth

/-- A step of `s`, or the end of its source, fails with `e` in the session `u`, while the built-in
word `b` runs. -/
inductive Fails (s : Session) (e : ScriptError) : (u : Session) → (b : Option String) → Prop
  | cancelled (hc : s.cancelled = true) (he : e.cause = .cancelled) : s.Fails e s none
  | operation {t : Session} (h : operation s = .error (.script e) t)
    (hb : t.builtin = s.nextBuiltinName?) : s.Fails e s s.nextBuiltinName?
  | source {t u : Session} (ht : t = s ∨ operation s = .ok () t) (hf : t.frame = none)
    (h : dropUsedSources t = .error (.script e) u) : s.Fails e t none

/-! ## What moves keep -/

theorem tracked_ofConfig (config : Config) : (ofConfig config).Tracked config.maxReturnDepth :=
  ⟨rfl, rfl, Nat.zero_le _, rfl⟩

/-- With nothing in flight no word is running. -/
theorem tracked_of_idle (hf : s.frame = none) (hr : s.returns.items = []) (hc : s.calls = [])
    (hb : s.builtin = none) (hl : s.returns.limit = depth) : s.Tracked depth where
  words := by simp [active, hf, hr, hc, callers]
  idle := hb
  room := by simp [hr]
  limit := hl

theorem tracked_step (hs : s.Tracked depth) (hl : Linked s.frame s.returns.items)
    (h : step s = .ok () t) : t.Tracked depth := by
  obtain ⟨u, sources, hu, rfl⟩ := exists_of_step h
  have ht := triple_operation_tracked hs hl s rfl
  rw [hu] at ht
  exact ⟨ht.words, ht.idle, ht.room, ht.limit⟩

/-- The end of a source inside a definition is complained about while no word runs. -/
theorem raised_dropUsedSources (hs : s.Tracked depth) (h : dropUsedSources s = .error fault t) :
    s.frame = none ∧ Raised depth none (s.active.map (·.name)) fault t := by
  unfold dropUsedSources at h
  rw [StackLang.get_bind] at h
  split at h
  · rename_i hf
    cases hu : unusedSources s.sources with
    | ok sources =>
      rw [hu] at h
      cases h
    | error d =>
      rw [hu] at h
      cases h
      refine ⟨Option.isNone_iff_eq_none.1 hf, hs.idle, ?_, nofun, nofun, hs.limit⟩
      rintro e ⟨⟩
      exact congrArg some hs.words
  · cases h

/-- A step that fails names the words that were running when it did. -/
theorem raised_step (hs : s.Tracked depth) (hl : Linked s.frame s.returns.items)
    (h : step s = .error fault t) :
    t.returns.limit = depth ∧ (∀ word, fault ≠ .breach (.lostMarker word)) ∧
      fault ≠ .outOfFuel ∧ ∀ e, fault = .script e → ∃ u b, s.Fails e u b ∧
        e.words? = some (b.toList ++ u.active.map (·.name)) := by
  cases hc : s.cancelled with
  | true =>
    rw [step_of_cancelled hc] at h
    cases h
    refine ⟨hs.limit, nofun, nofun, ?_⟩
    rintro e ⟨⟩
    exact ⟨s, none, .cancelled hc rfl, congrArg some hs.words⟩
  | false =>
    rw [step_of_running hc] at h
    have hop := triple_operation_tracked hs hl s rfl
    rcases error_of_bind h with h | ⟨_, u, hu, h⟩
    · rw [h] at hop
      refine ⟨hop.limit, hop.marker, hop.fuel, ?_⟩
      rintro e rfl
      refine ⟨s, _, .operation h hop.builtin, ?_⟩
      rw [hop.words e rfl, hs.words]
    · rw [hu] at hop
      obtain ⟨hf, hr⟩ := raised_dropUsedSources hop h
      refine ⟨hr.limit, hr.marker, hr.fuel, ?_⟩
      rintro e rfl
      exact ⟨u, none, .source (.inr hu) hf h, hr.words e rfl⟩

/-- A move that fails names the words that were running when it did, and none is left. -/
theorem raised_move {m : Move} (hs : s.Tracked depth) (hl : Linked s.frame s.returns.items)
    (h : m.run s = .error fault t) :
    (∀ word, fault ≠ .breach (.lostMarker word)) ∧ fault ≠ .outOfFuel ∧
      ∀ e, fault = .script e → t.Tracked depth ∧ ∃ u b, s.Fails e u b ∧
        e.words? = some (b.toList ++ u.active.map (·.name)) := by
  rcases error_of_move h with ⟨-, h⟩ | ⟨-, h⟩
  · obtain ⟨u, hu, ht⟩ := error_of_checked h
    obtain ⟨hlimit, hmarker, hfuel, hwords⟩ := raised_step hs hl hu
    refine ⟨hmarker, hfuel, fun e he => ⟨?_, hwords e he⟩⟩
    obtain rfl := ht e he
    exact tracked_of_idle rfl rfl rfl rfl hlimit
  · obtain ⟨u, hu, ht⟩ := error_of_checked h
    obtain ⟨hf, hr⟩ := raised_dropUsedSources hs hu
    refine ⟨hr.marker, hr.fuel, ?_⟩
    rintro e rfl
    obtain rfl := ht e rfl
    exact ⟨tracked_of_idle rfl rfl rfl rfl hr.limit, s, none, .source (.inl rfl) hf hu,
      hr.words e rfl⟩

theorem tracked_dropUsedSources (hs : s.Tracked depth) (h : dropUsedSources s = .ok () t) :
    t.Tracked depth := by
  obtain ⟨sources, rfl, -⟩ := exists_of_dropUsedSources h
  exact ⟨hs.words, hs.idle, hs.room, hs.limit⟩

theorem tracked_of_ok {m : Move} (hs : s.Tracked depth) (hl : Linked s.frame s.returns.items)
    (h : m.run s = .ok () t) : t.Tracked depth := by
  cases m with
  | step =>
    rcases step_of_run_step h with ⟨-, h⟩ | ⟨-, rfl⟩
    · exact tracked_step hs hl h
    · exact hs
  | dropUsedSources => exact tracked_dropUsedSources hs (eq_ok_of_checked h)
  | reset =>
    cases h
    exact tracked_of_idle rfl rfl rfl rfl hs.limit
  | enqueue path source | setMode mode | setCancelled cancelled | observe observers | takeOutput
  | mark | resetDefinitions =>
    cases h
    exact ⟨hs.words, hs.idle, hs.room, hs.limit⟩

theorem tracked_move {m : Move} (hs : s.Tracked depth) (hl : Linked s.frame s.returns.items)
    (h : remains (m.run s) = .ok t) : t.Tracked depth := by
  cases hm : m.run s with
  | ok a u =>
    rw [hm] at h
    cases h
    exact tracked_of_ok hs hl hm
  | error fault u =>
    rw [hm] at h
    obtain ⟨-, hfuel, hscript⟩ := raised_move hs hl hm
    cases fault with
    | script e =>
      cases h
      exact (hscript e rfl).1
    | breach b => cases h
    | outOfFuel => exact (hfuel rfl).elim

theorem tracked_play {moves : List Move} (hv : s.Valid AbleOrBlank) (hs : s.Tracked depth)
    (h : play moves s = .ok t) : t.Tracked depth := by
  induction moves generalizing s with
  | nil =>
    cases h
    exact hs
  | cons m moves ih =>
    rw [play] at h
    cases hm : remains (m.run s) with
    | ok u =>
      rw [hm] at h
      exact ih (valid_move hv hm) (tracked_move hs hv.linked hm) h
    | error b =>
      rw [hm] at h
      cases h

/-! ## Every session -/

theorem Tracked.chained (hs : s.Tracked depth) (hl : Linked s.frame s.returns.items) :
    s.Chained depth := by
  have hheld := held_of_linked hl
  refine ⟨?_, hheld, ?_, hs.words, hs.limit ▸ hs.room⟩
  · rw [← length_held, hheld]
    split <;> simp_all
  · have hlength := congrArg List.length hs.words
    rw [List.length_map, List.length_map] at hlength
    rw [hlength, ← length_held, hheld, active]
    cases hf : s.frame with
    | none => simp [callers_of_linked (hf ▸ hl)]
    | some f => simp [Nat.add_comm]

/-- In every session between two moves the running frame, the markers and the list of calls belong
together, and the end of a word finds its marker.  If a request fails, then not because a marker is
missing, and an error of the script names the words whose frames were active when it was raised,
with the built-in word in front that was running then. -/
theorem chained_of_play {config : Config} {moves : List Move}
    (h : play moves (ofConfig config) = .ok s) :
    s.Chained config.maxReturnDepth ∧
      (∀ f, s.frame = some f → ∃ caller, s.returns.exitCall.1 = some caller) ∧
      ∀ fuel r fault t, Request.run fuel r s = .error fault t →
        (∀ word, fault ≠ .breach (.lostMarker word)) ∧
        ∀ e, fault = .script e → ∃ more u v b, play more s = .ok u ∧ u.Fails e v b ∧
          e.words? = some (b.toList ++ v.active.map (·.name)) := by
  have hv := valid_play (valid_ofConfig config nofun) h
  have hs := tracked_play (valid_ofConfig config nofun) (tracked_ofConfig config) h
  refine ⟨hs.chained hv.linked, fun f hf => ?_, fun fuel r fault t hr => ?_⟩
  · obtain ⟨caller, hc, -⟩ := linked_exitCall (hf ▸ hv.linked)
    exact ⟨caller, hc⟩
  · rcases failsInMove_request fuel r s fault t hr with rfl | ⟨more, u, m, hu, hm⟩
    · exact ⟨nofun, nofun⟩
    · have hfails := raised_move (tracked_play hv hs hu) (valid_play hv hu).linked hm
      refine ⟨hfails.1, fun e he => ?_⟩
      obtain ⟨-, v, b, hfail, hwords⟩ := hfails.2.2 e he
      exact ⟨more, u, v, b, hu, hfail, hwords⟩

/-- What a step complains about, and the words that it says were running. -/
def stepWords? (s : Session) : Option (Cause × Option (List String)) :=
  match Move.step.run s with
  | .error (.script e) _ => some (e.cause, e.words?)
  | _ => none

/-- `OUTER` has called `OOPS`, which has come to its division by zero. -/
theorem chained_of_play_division :
    let moves := Move.enqueue inputPath ": OOPS 1 0 / ; : OUTER OOPS ; OUTER" ::
      List.replicate 12 .step
    ∃ s t e, play moves (ofConfig .standard) = .ok s ∧ Move.step.run s = .error (.script e) t ∧
      e.cause = .divisionByZero (.int 1) ∧ e.words? = some ["/", "OOPS", "OUTER"] ∧
      s.Chained 4096 ∧ (∀ f, s.frame = some f → ∃ caller, s.returns.exitCall.1 = some caller) ∧
      ∃ more u v b, play more s = .ok u ∧ u.Fails e v b ∧
        e.words? = some (b.toList ++ v.active.map (·.name)) := by
  intro moves
  have hrun : (play moves (ofConfig .standard)).toOption.bind stepWords? =
      some (.divisionByZero (.int 1), some ["/", "OOPS", "OUTER"]) := by
    rw [play, show Move.run (.enqueue inputPath ": OOPS 1 0 / ; : OUTER OOPS ; OUTER")
      (ofConfig .standard) = .ok () { ofConfig .standard with
        sources := [] ++ [.ofSource inputPath ": OOPS 1 0 / ; : OUTER OOPS ; OUTER"] } from rfl]
    rw [Pending.ofSource_eq 50 (by decide)]
    decide +kernel
  obtain ⟨s, hs, hrun⟩ := Option.bind_eq_some_iff.1 hrun
  have hs := eq_ok_of_toOption hs
  unfold stepWords? at hrun
  cases ht : Move.step.run s with
  | ok a t =>
    rw [ht] at hrun
    cases hrun
  | error fault t =>
    rw [ht] at hrun
    cases fault with
    | breach b | outOfFuel => cases hrun
    | script e =>
      simp only [Option.some.injEq, Prod.mk.injEq] at hrun
      obtain ⟨hchained, hexits, hfails⟩ := chained_of_play hs
      exact ⟨s, t, e, hs, ht, hrun.1, hrun.2, hchained, hexits,
        (hfails 0 (.move .step) (.script e) t ht).2 e rfl⟩

end Session

end StackLang
